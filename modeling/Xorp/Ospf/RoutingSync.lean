/-
The RIB is in step with the routing table.

The calls for one network say what the RIB holds for it (`play`).  Between transactions that is what
the policy makes of the winning entry, and the flag of the entry says whether the RIB has it.  The
comparison at the end of a transaction keeps this up whenever it sees a difference.  When it sees
none, the two winners have to be alike in what it does not look at (`Alike`).
-/
import Xorp.Ospf.RoutingTable

namespace Xorp.Ospf

open Linked List IPNet Option

/-- The network that a call is about. -/
def Call.net {w : Nat} : Call w → IPNet w
  | .addRoute net _ _ => net
  | .replaceRoute net _ _ => net
  | .deleteRoute net => net
  | .summaryAnnounce _ net _ => net
  | .summaryWithdraw _ net _ => net
  | .summaryReplace _ net _ _ _ => net

variable {w : Nat} {policy : Policy w} {net : IPNet w} {rt p c : RouteEntry w}

namespace RoutingTable

variable {log calls : List (Call w)} {held held' : Option (BitVec w × Nat)}

/-! ### What the RIB holds -/

/-- A call, when the RIB holds `held` for its network.  A route is added when there is none, and
deleted or replaced when there is one. -/
def playCall (held : Option (BitVec w × Nat)) : Call w → Option (Option (BitVec w × Nat))
  | .addRoute _ nexthop metric => if held.isSome then none else some (some (nexthop, metric))
  | .replaceRoute _ nexthop metric => if held.isSome then some (some (nexthop, metric)) else none
  | .deleteRoute _ => if held.isSome then some none else none
  | _ => some held

/-- The calls for a network. -/
def play (held : Option (BitVec w × Nat)) (calls : List (Call w)) :
    Option (Option (BitVec w × Nat)) := calls.foldlM playCall held

/-- What the RIB holds for a network after the calls, if all of them were in order. -/
def installed (log : List (Call w)) (net : IPNet w) : Option (Option (BitVec w × Nat)) :=
  play none (log.filter fun call => call.net = net)

/-- What the RIB should hold for an entry. -/
def wanted (policy : Policy w) (net : IPNet w) (rt : RouteEntry w) : Option (BitVec w × Nat) :=
  if rt.discard then none else doFiltering policy net rt

/-- What the RIB should hold for a network. -/
def expected (policy : Policy w) (t : Option (Table w)) (net : IPNet w) :
    Option (BitVec w × Nat) := (entryAt t net).bind (wanted policy net)

theorem play_append (h : play held calls = some held') (more : List (Call w)) :
    play held (calls ++ more) = play held' more := by
  unfold play at h ⊢
  rw [foldlM_append, h]
  rfl

theorem installed_append (h : installed log net = some held) :
    installed (log ++ calls) net = play held (calls.filter fun call => call.net = net) := by
  unfold installed at h ⊢
  rw [filter_append, play_append h]

/-- The flag for an entry says whether the RIB has it. -/
def Flagged (policy : Policy w) (net : IPNet w) (rt : RouteEntry w) (filtered : Bool) : Prop :=
  rt.discard = false → filtered = (wanted policy net rt).isNone

theorem wanted_of_discard (h : rt.discard = true) : wanted policy net rt = none := if_pos h

theorem wanted_of_not_discard (policy : Policy w) (h : rt.discard = false) :
    wanted policy net rt = doFiltering policy net rt := if_neg (by rw [h]; exact Bool.false_ne_true)

/-- A call to the peer manager is nothing to the RIB. -/
theorem play_announce (summaries : Bool) (area : AreaId) :
    play held (if summaries then [.summaryAnnounce area net rt] else []) = some held := by
  cases summaries <;> rfl

theorem play_withdraw (summaries : Bool) (area : AreaId) :
    play held (if summaries then [.summaryWithdraw area net rt] else []) = some held := by
  cases summaries <;> rfl

theorem play_addRoute (summaries : Bool) :
    play none (addRoute policy net rt summaries).1 = some (wanted policy net rt) ∧
      Flagged policy net rt (addRoute policy net rt summaries).2 := by
  unfold addRoute Flagged
  cases hd : rt.discard with
  | true =>
    rw [wanted_of_discard hd]
    exact ⟨play_announce summaries _, nofun⟩
  | false =>
    rw [wanted_of_not_discard policy hd]
    cases hf : doFiltering policy net rt with
    | none => exact ⟨play_announce summaries _, fun _ => rfl⟩
    | some r => exact ⟨play_announce summaries _, fun _ => rfl⟩

theorem play_deleteRoute (h : Flagged policy net rt rt.filtered) (summaries : Bool) :
    play (wanted policy net rt) (deleteRoute net rt summaries) = some none := by
  unfold deleteRoute
  cases hd : rt.discard with
  | true =>
    rw [wanted_of_discard hd]
    exact play_withdraw summaries _
  | false =>
    have hflag := h hd
    cases hw : wanted policy net rt with
    | none | some r =>
      rw [hw] at hflag
      rw [hflag]
      exact play_withdraw summaries _

theorem play_replaceRoute (h : Flagged policy net p p.filtered) :
    play (wanted policy net p) (replaceRoute policy net c p).1 = some (wanted policy net c) ∧
      Flagged policy net c (replaceRoute policy net c p).2 := by
  obtain ⟨hadd, hflag⟩ := play_addRoute false
  refine ⟨?_, hflag⟩
  have hboth : play (wanted policy net p)
      (deleteRoute net p false ++ (addRoute policy net c false).1) = some (wanted policy net c) := by
    rw [play_append (play_deleteRoute h false), hadd]
  exact play_append hboth _

/-- Two winners that the comparison takes for the same are alike in what it does not look at: the
RIB should have both or neither, a discard route with the flag of a route that is in the RIB gives
way to none but a discard route, and they are of the same area and path type. -/
structure Alike (policy : Policy w) (net : IPNet w) (p c : RouteEntry w) : Prop where
  hidden : (p.discard || p.destinationType = .router || p.direct) =
    (c.discard || c.destinationType = .router || c.direct) ∨ policy net c.nexthop c.cost = none
  discard : p.discard = true → c.discard = true ∨ p.filtered = true
  area : p.area = c.area
  pathType : p.pathType = c.pathType

theorem Alike.wanted_eq (h : Alike policy net p c) (hn : c.nexthop = p.nexthop)
    (hc : c.cost = p.cost) : wanted policy net c = wanted policy net p := by
  have hshow : ∀ rt : RouteEntry w, wanted policy net rt =
      if (rt.discard || rt.destinationType = .router || rt.direct) = true then none
      else policy net rt.nexthop rt.cost := by
    intro rt
    unfold wanted doFiltering
    cases rt.discard <;> cases rt.direct <;> cases rt.destinationType <;> rfl
  rw [hshow, hshow, ← hn, ← hc]
  rcases h.hidden with heq | hnone
  · rw [heq]
  · rw [hnone, ite_self, ite_self]

/-- The comparison of `end`, for a network. -/
theorem play_endEntry (prev : Option (RouteEntry w))
    (hflag : ∀ p, prev = some p → Flagged policy net p p.filtered)
    (halike : ∀ p, prev = some p → c.nexthop = p.nexthop → c.cost = p.cost → Alike policy net p c) :
    play (prev.bind (wanted policy net)) (endEntry policy net c prev).1 =
        some (wanted policy net c) ∧
      Flagged policy net c (endEntry policy net c prev).2 := by
  cases prev with
  | none => exact play_addRoute true
  | some p =>
    have hp := hflag p rfl
    unfold endEntry
    dsimp only
    split_ifs with hdiff
    · exact play_replaceRoute hp
    · rw [not_or, not_not, not_not] at hdiff
      have hlike := halike p rfl hdiff.1 hdiff.2
      have heq := hlike.wanted_eq hdiff.1 hdiff.2
      refine ⟨congrArg some heq.symm, fun hd => ?_⟩
      rw [heq]
      cases hpd : p.discard with
      | false => exact hp hpd
      | true =>
        rw [wanted_of_discard hpd]
        rcases hlike.discard hpd with hcd | hfiltered
        · exact absurd (hd.symm.trans hcd) Bool.false_ne_true
        · exact hfiltered

theorem play_pushEntry {old : Policy w} (h : Flagged old net rt rt.filtered) :
    play (wanted old net rt) (pushEntry policy net rt).1 = some (wanted policy net rt) ∧
      Flagged policy net rt (pushEntry policy net rt).2 := by
  unfold pushEntry
  cases hd : rt.discard with
  | true =>
    rw [wanted_of_discard hd, wanted_of_discard hd]
    refine ⟨rfl, fun h => ?_⟩
    rw [hd] at h
    cases h
  | false =>
    have hflag := h hd
    unfold Flagged
    rw [wanted_of_not_discard policy hd]
    cases hf : doFiltering policy net rt with
    | none | some r =>
      cases hw : wanted old net rt with
      | none | some r' =>
        rw [hw] at hflag
        rw [hflag]
        exact ⟨rfl, fun _ => rfl⟩

end RoutingTable

/-! ### Winners -/

namespace InternalRouteEntry

/-- Changes that the choice of a winner does not look at. -/
theorem winnerOf_map (f : AreaId × RouteEntry w → AreaId × RouteEntry w)
    (hf : ∀ a b, ((f a).2.beats (f b).2) = a.2.beats b.2)
    (e : AreaId × RouteEntry w) (es : List (AreaId × RouteEntry w)) :
    winnerOf (f e) (es.map f) = f (winnerOf e es) := by
  unfold winnerOf
  induction es generalizing e with
  | nil => rfl
  | cons c es ih =>
    rw [map_cons, foldl_cons, foldl_cons, hf, ← ih]
    congr 1
    split_ifs <;> rfl

theorem getEntry_setFiltered (ire : InternalRouteEntry w) (b : Bool) :
    (ire.setFiltered b).getEntry = { ire.getEntry with filtered := b } := by
  obtain ⟨entries, hne⟩ := ire
  cases entries with
  | nil => contradiction
  | cons e es =>
    have hwin : (InternalRouteEntry.setFiltered ⟨e :: es, hne⟩ b).winner =
        mark (winnerOf e es).1 b (winnerOf e es) := by
      refine winnerOf_map (mark (winnerOf e es).1 b) (fun a c => ?_) e es
      unfold mark
      split_ifs <;> rfl
    rw [getEntry, hwin, mark, if_pos rfl]
    rfl

end InternalRouteEntry

/-! ### Tables -/

variable {t : Table w}

namespace Table

variable {e : IPNet w × InternalRouteEntry w}

theorem isFor_of_eq (h : e.1 = net) : isFor net e = true := decide_eq_true h

theorem isFor_of_ne (h : e.1 ≠ net) : ¬ isFor net e = true := fun hf => h (of_decide_eq_true hf)

theorem lookup_mapEntries (f : IPNet w → InternalRouteEntry w → InternalRouteEntry w) :
    (t.mapEntries f).lookup net = (t.lookup net).map (f net) := by
  show ((t.entries.map fun e => (e.1, f e.1 e.2)).find? (isFor net)).map Prod.snd = _
  unfold lookup
  generalize t.entries = l
  induction l with
  | nil => rfl
  | cons e l ih =>
    have hsame : isFor net (e.1, f e.1 e.2) = isFor net e := rfl
    rw [map_cons]
    by_cases he : e.1 = net
    · rw [find?_cons_of_pos (hsame.trans (isFor_of_eq he)),
        find?_cons_of_pos (isFor_of_eq he), ← he]
      rfl
    · rw [find?_cons_of_neg (by rw [hsame]; exact isFor_of_ne he),
        find?_cons_of_neg (isFor_of_ne he)]
      exact ih

/-- The calls of a sweep for one network are those for its entry. -/
theorem filter_flatMap (t : Table w) (f : IPNet w × InternalRouteEntry w → List (Call w))
    (hf : ∀ e, ∀ call ∈ f e, call.net = e.1) :
    (t.entries.flatMap f).filter (fun call => call.net = net) =
      ((t.lookup net).map fun ire => f (net, ire)).getD [] := by
  have hnodup := t.nodup
  unfold lookup
  generalize t.entries = l at hnodup ⊢
  induction l with
  | nil => rfl
  | cons e l ih =>
    rw [map_cons, nodup_cons] at hnodup
    rw [flatMap_cons, filter_append]
    by_cases he : e.1 = net
    · have hall : (f e).filter (fun call => call.net = net) = f e := by
        apply filter_eq_self.mpr
        intro call hcall
        exact decide_eq_true ((hf e call hcall).trans he)
      have hnone : l.find? (isFor net) = none := by
        rw [find?_eq_none]
        intro x hx hxn
        apply hnodup.1
        rw [he, ← of_decide_eq_true hxn]
        exact mem_map_of_mem hx
      rw [hall, ih hnodup.2, hnone, find?_cons_of_pos (isFor_of_eq he), ← he]
      exact append_nil _
    · have hnone : (f e).filter (fun call => call.net = net) = [] := by
        apply filter_eq_nil_iff.mpr
        intro call hcall hnet
        exact he ((hf e call hcall).symm.trans (of_decide_eq_true hnet))
      rw [hnone, ih hnodup.2, find?_cons_of_neg (isFor_of_ne he), nil_append]

theorem mem_of_lookup {ire : InternalRouteEntry w} (h : t.lookup net = some ire) :
    (net, ire) ∈ t.entries := by
  obtain ⟨e, he, rfl⟩ := map_eq_some_iff.mp h
  have hnet : e.1 = net := of_decide_eq_true (find?_some (p := isFor net) he)
  rw [← hnet]
  exact mem_of_find?_eq_some he

end Table

/-! ### Transactions -/

namespace RoutingTable

variable {call : Call w} {log : List (Call w)} {prev : Option (Table w)} {S S' : RoutingTable w}

variable {area : AreaId} {summaries : Bool}

theorem net_of_mem_addRoute (h : call ∈ (addRoute policy net rt summaries).1) : call.net = net := by
  unfold addRoute at h
  cases hd : rt.discard <;> cases hf : doFiltering policy net rt <;> cases summaries <;>
    simp [hd, hf] at h
  all_goals rcases h with rfl | rfl
  all_goals rfl

theorem net_of_mem_deleteRoute (h : call ∈ deleteRoute net rt summaries) : call.net = net := by
  rcases mem_append.mp h with h | h
  · split_ifs at h
    · cases h
    · rw [mem_singleton.mp h]
      rfl
  · split_ifs at h
    · rw [mem_singleton.mp h]
      rfl
    · cases h

theorem net_of_mem_endEntry {o : Option (RouteEntry w)} (h : call ∈ (endEntry policy net rt o).1) :
    call.net = net := by
  cases o with
  | none => exact net_of_mem_addRoute h
  | some p =>
    unfold endEntry at h
    dsimp only at h
    split_ifs at h
    · rcases mem_append.mp h with h | h
      · rcases mem_append.mp h with h | h
        · exact net_of_mem_deleteRoute h
        · exact net_of_mem_addRoute h
      · rw [mem_singleton.mp h]
        rfl
    · cases h

theorem net_of_mem_pushEntry (h : call ∈ (pushEntry policy net rt).1) : call.net = net := by
  unfold pushEntry at h
  split at h
  · cases h
  · split at h
    · rw [mem_singleton.mp h]
      split_ifs <;> rfl
    · split_ifs at h
      · cases h
      · rw [mem_singleton.mp h]
        rfl

/-- The RIB holds what it should for the table, and the flags of the winners say so. -/
structure Synced (policy : Policy w) (t : Option (Table w)) (log : List (Call w)) : Prop where
  holds : ∀ net, installed log net = some (expected policy t net)
  flags : ∀ {net rt}, entryAt t net = some rt → Flagged policy net rt rt.filtered

/-- The winner after a sweep that sets the flags. -/
theorem entryAt_mapEntries (f : IPNet w → RouteEntry w → Bool) :
    entryAt (some (t.mapEntries fun net ire => ire.setFiltered (f net ire.getEntry))) net =
      (entryAt (some t) net).map fun rt => { rt with filtered := f net rt } := by
  unfold entryAt
  rw [Option.bind_some, Option.bind_some, Table.lookup_mapEntries, Option.map_map, Option.map_map]
  congr 1
  funext ire
  exact InternalRouteEntry.getEntry_setFiltered ire _

theorem endDeletes_for (prev : Option (Table w)) (t : Table w) (net : IPNet w) :
    (endDeletes prev t).filter (fun call => call.net = net) =
      if (entryAt (some t) net).isSome then []
      else ((entryAt prev net).map fun p => deleteRoute net p true).getD [] := by
  unfold endDeletes entryAt
  cases prev with
  | none =>
    split_ifs <;> rfl
  | some old =>
    refine (old.filter_flatMap _ fun e call hcall => ?_).trans ?_
    · split_ifs at hcall
      · cases hcall
      · exact net_of_mem_deleteRoute hcall
    · rw [Option.bind_some, Option.bind_some, Option.isSome_map, Option.map_map]
      cases old.lookup net with
      | none => split_ifs <;> rfl
      | some ire => rfl

theorem endUpdates_for (policy : Policy w) (prev : Option (Table w)) (t : Table w) (net : IPNet w) :
    (endUpdates policy prev t).filter (fun call => call.net = net) =
      ((entryAt (some t) net).map fun c => (endEntry policy net c (entryAt prev net)).1).getD [] := by
  refine (t.filter_flatMap _ fun e call hcall => net_of_mem_endEntry hcall).trans ?_
  show _ = (((t.lookup net).map InternalRouteEntry.getEntry).map _).getD []
  rw [Option.map_map]
  rfl

/-- The winners that the comparison at the end of a transaction takes for the same. -/
def AllAlike (policy : Policy w) (prev : Option (Table w)) (t : Table w) : Prop :=
  ∀ net p c, entryAt prev net = some p → entryAt (some t) net = some c →
    c.nexthop = p.nexthop → c.cost = p.cost → Alike policy net p c

theorem Synced.endTransaction (h : Synced policy prev log) (halike : AllAlike policy prev t) :
    Synced policy (some (endTable policy prev t))
      (log ++ (endDeletes prev t ++ endUpdates policy prev t)) := by
  have hentry : ∀ net, entryAt (some (endTable policy prev t)) net =
      (entryAt (some t) net).map fun rt =>
        { rt with filtered := (endEntry policy net rt (entryAt prev net)).2 } := fun net =>
    entryAt_mapEntries fun net rt => (endEntry policy net rt (entryAt prev net)).2
  have hplay : ∀ {net c}, entryAt (some t) net = some c →
      play (expected policy prev net) (endEntry policy net c (entryAt prev net)).1 =
          some (wanted policy net c) ∧
        Flagged policy net c (endEntry policy net c (entryAt prev net)).2 := fun {net c} hc =>
    play_endEntry (entryAt prev net) (fun p hp => h.flags hp) fun p hp => halike net p c hp hc
  constructor
  · intro net
    rw [installed_append (h.holds net), filter_append, endDeletes_for, endUpdates_for]
    unfold expected
    rw [hentry]
    cases hc : entryAt (some t) net with
    | none =>
      cases hp : entryAt prev net with
      | none => rfl
      | some p =>
        have hdel := play_deleteRoute (h.flags hp) true
        exact play_append hdel []
    | some c => exact (hplay hc).1
  · intro net rt hrt
    rw [hentry] at hrt
    obtain ⟨c, hc, rfl⟩ := map_eq_some_iff.mp hrt
    exact (hplay hc).2

theorem Synced.pushRoutes (h : Synced policy (some t) log) (policy' : Policy w) :
    Synced policy' (some (t.mapEntries fun net ire =>
        ire.setFiltered (pushEntry policy' net ire.getEntry).2))
      (log ++ t.entries.flatMap fun e => (pushEntry policy' e.1 e.2.getEntry).1) := by
  have hentry : ∀ net, entryAt (some (t.mapEntries fun net ire =>
        ire.setFiltered (pushEntry policy' net ire.getEntry).2)) net =
      (entryAt (some t) net).map fun rt => { rt with filtered := (pushEntry policy' net rt).2 } :=
    fun net => entryAt_mapEntries fun net rt => (pushEntry policy' net rt).2
  constructor
  · intro net
    rw [installed_append (h.holds net),
      t.filter_flatMap _ fun e call hcall => net_of_mem_pushEntry hcall]
    unfold expected
    rw [hentry]
    cases hl : t.lookup net with
    | none =>
      have hnone : entryAt (some t) net = none := by
        unfold entryAt
        rw [bind_some, hl]
        rfl
      rw [hnone]
      rfl
    | some ire =>
      have hsome : entryAt (some t) net = some ire.getEntry := by
        unfold entryAt
        rw [bind_some, hl]
        rfl
      rw [hsome]
      exact (play_pushEntry (h.flags hsome)).1
  · intro net rt hrt
    rw [hentry] at hrt
    obtain ⟨c, hc, rfl⟩ := map_eq_some_iff.mp hrt
    exact (play_pushEntry (h.flags hc)).2

/-- Outside a transaction the RIB follows the table, inside one the table before it. -/
structure Inv (S : RoutingTable w) : Prop where
  idle : S.inTransaction = false → Synced S.policy S.current S.log
  busy : S.inTransaction = true → Synced S.policy S.previous S.log

/-- A step inside a transaction that changes the table only. -/
theorem Inv.within (h : S.Inv) (hin : S.inTransaction = true) (t : Option (Table w)) :
    Inv { S with current := t } where
  idle hidle := absurd (hin.symm.trans hidle) Bool.noConfusion
  busy := h.busy

theorem Inv.addEntry (h : S.Inv) (hstep : S.addEntry area net rt = .ok S') : S'.Inv := by
  unfold RoutingTable.addEntry at hstep
  split_ifs at hstep with hbad hnet
  · have hin : S.inTransaction = true := by
      by_contra hout
      exact hbad (Or.inl hout)
    split at hstep
    · cases hstep
    · obtain ⟨ire, -, hstep⟩ := bind_eq_ok.mp hstep
      cases hstep
      exact h.within hin _
  · cases hstep
    exact h

theorem Inv.replaceEntry (h : S.Inv) (hstep : S.replaceEntry area net rt = .ok S') : S'.Inv := by
  unfold RoutingTable.replaceEntry at hstep
  split_ifs at hstep with hin hnet
  · split at hstep
    · cases hstep
    · split at hstep
      · exact h.addEntry hstep
      · obtain ⟨ire, -, hstep⟩ := bind_eq_ok.mp hstep
        cases hstep
        exact h.within hin _
  · cases hstep
    exact h

theorem Inv.beginTransaction (h : S.Inv) (hstep : S.beginTransaction area = .ok S') : S'.Inv := by
  unfold RoutingTable.beginTransaction at hstep
  split_ifs at hstep with hin
  cases hstep
  exact ⟨nofun, fun _ => h.idle (Bool.eq_false_iff.mpr hin)⟩

/-- What the comparison at the end of a transaction has to go by: winners with the same nexthop and
the same cost are alike in all that the RIB and the summaries depend on. -/
def StepOk (S : RoutingTable w) : Op w → Prop
  | .endTransaction => ∀ t, S.current = some t → AllAlike S.policy S.previous t
  | _ => True

theorem Inv.endTransaction (h : S.Inv) (hok : S.StepOk .endTransaction)
    (hstep : S.endTransaction = .ok S') : S'.Inv := by
  unfold RoutingTable.endTransaction at hstep
  split_ifs at hstep with hin
  split at hstep
  · cases hstep
  · next t ht =>
      cases hstep
      exact ⟨fun _ => (h.busy hin).endTransaction (hok t ht),
        fun hbusy => absurd hbusy Bool.noConfusion⟩

theorem Inv.pushRoutes (h : S.Inv) (hidle : S.inTransaction = false) (policy : Policy w) :
    (S.pushRoutes policy).Inv := by
  have hsync := h.idle hidle
  unfold RoutingTable.pushRoutes
  cases ht : S.current with
  | none =>
    rw [ht] at hsync
    refine ⟨fun _ => ?_, fun hbusy => absurd (hidle.symm.trans hbusy) Bool.noConfusion⟩
    exact ⟨fun net => hsync.holds net, fun hrt => absurd hrt nofun⟩
  | some t =>
    rw [ht] at hsync
    exact ⟨fun _ => hsync.pushRoutes policy,
      fun hbusy => absurd (hidle.symm.trans hbusy) Bool.noConfusion⟩

theorem Inv.step {op : Op w} (h : S.Inv) (hlegal : S.Legal op) (hok : S.StepOk op)
    (hstep : S.step op = .ok S') : S'.Inv := by
  cases op with
  | beginTransaction area => exact h.beginTransaction hstep
  | addEntry area net rt => exact h.addEntry hstep
  | replaceEntry area net rt => exact h.replaceEntry hstep
  | endTransaction => exact h.endTransaction hok hstep
  | pushRoutes policy =>
    cases hstep
    exact h.pushRoutes hlegal policy

theorem Reach.inv {ok : RoutingTable w → Op w → Prop} (hok : ∀ S op, ok S op → S.StepOk op)
    (h : Reach ok S) : S.Inv := by
  induction h with
  | init version policy =>
    exact ⟨fun _ => ⟨fun net => rfl, fun hrt => absurd hrt nofun⟩, nofun⟩
  | step op _ hlegal hokop hstep ih => exact ih.step hlegal (hok _ _ hokop) hstep

/-- The peer manager is told of a change from one winner to another. -/
def SummaryPassed (net : IPNet w) (calls : List (Call w)) :
    Option (RouteEntry w) → Option (RouteEntry w) → Prop
  | none, none => True
  | none, some c => .summaryAnnounce c.area net c ∈ calls
  | some p, none => .summaryWithdraw p.area net p ∈ calls
  | some p, some c => c.area ≠ p.area ∨ c.pathType ≠ p.pathType ∨ c.cost ≠ p.cost →
      .summaryReplace c.area net c p p.area ∈ calls

theorem summaryPassed_endTransaction (halike : AllAlike policy prev t) (net : IPNet w) :
    SummaryPassed net (endDeletes prev t ++ endUpdates policy prev t) (entryAt prev net)
      (entryAt (some (endTable policy prev t)) net) := by
  have hentry : entryAt (some (endTable policy prev t)) net = (entryAt (some t) net).map fun rt =>
      { rt with filtered := (endEntry policy net rt (entryAt prev net)).2 } :=
    entryAt_mapEntries fun net rt => (endEntry policy net rt (entryAt prev net)).2
  have hdel := endDeletes_for prev t net
  have hupd := endUpdates_for policy prev t net
  rw [hentry]
  cases hc : entryAt (some t) net with
  | none =>
    cases hp : entryAt prev net with
    | none => exact True.intro
    | some p =>
      rw [hc, hp] at hdel
      refine mem_append_left _ (mem_of_mem_filter (p := fun call => call.net = net) ?_)
      rw [hdel]
      exact mem_append_right _ (mem_singleton_self _)
  | some c =>
    rw [hc] at hupd
    cases hp : entryAt prev net with
    | none =>
      rw [hp] at hupd
      refine mem_append_right _ (mem_of_mem_filter (p := fun call => call.net = net) ?_)
      rw [hupd]
      exact mem_append_right _ (mem_singleton_self _)
    | some p =>
      rw [hp] at hupd
      intro hchange
      have hdiff : c.nexthop ≠ p.nexthop ∨ c.cost ≠ p.cost := by
        by_contra hsame
        rw [not_or, not_not, not_not] at hsame
        have hlike := halike net p c hp hc hsame.1 hsame.2
        rcases hchange with harea | hpath | hcost
        · exact harea hlike.area.symm
        · exact hpath hlike.pathType.symm
        · exact hcost hsame.2
      have hrepl : endEntry policy net c (some p) = replaceRoute policy net c p := if_pos hdiff
      refine mem_append_right _ (mem_of_mem_filter (p := fun call => call.net = net) ?_)
      rw [hupd]
      show Call.summaryReplace _ net { c with filtered := (endEntry policy net c (some p)).2 } p _
        ∈ (endEntry policy net c (some p)).1
      rw [hrepl]
      exact mem_append_right _ (mem_singleton_self _)

/-- After every transaction of a run in which no transaction ends with winners that the comparison
confuses, the RIB holds what the policy makes of the winning entries, no route was added twice or
deleted when it was not there, and the peer manager was told of every winner that changed. -/
theorem rib_in_step {ok : RoutingTable w → Op w → Prop} (hok : ∀ S op, ok S op → S.StepOk op)
    (h : Reach ok S) (hend : ok S .endTransaction) (hstep : S.step .endTransaction = .ok S') :
    (∀ net, installed S'.log net = some (expected S'.policy S'.current net)) ∧
      ∃ calls, S'.log = S.log ++ calls ∧
        ∀ net, SummaryPassed net calls (entryAt S.previous net) (entryAt S'.current net) := by
  have hstepok := hok S .endTransaction hend
  have hinv := (h.inv hok).endTransaction hstepok hstep
  unfold RoutingTable.step RoutingTable.endTransaction at hstep
  dsimp only at hstep
  split_ifs at hstep with hin
  split at hstep
  · cases hstep
  · next t ht =>
      cases hstep
      exact ⟨(hinv.idle rfl).holds, _, rfl, summaryPassed_endTransaction (hstepok t ht)⟩

/-! ### Two runs -/

/-- A route of the backbone, through one neighbour. -/
def backboneRoute (direct : Bool) (cost : Nat) : RouteEntry 8 :=
  ⟨.network, false, direct, 0, .intraArea, cost, 1, false⟩

/-- Every route is accepted as it is. -/
def acceptAll : Policy 8 := fun _ nexthop metric => some (nexthop, metric)

/-- A route whose cost goes up is replaced in the RIB. -/
theorem rib_in_step_cost : ∃ S S' : RoutingTable 8, Reach StepOk S ∧
    S.step .endTransaction = .ok S' ∧
    entryAt S.previous (IPNet.any 8) = some (backboneRoute false 1) ∧
    installed S'.log (IPNet.any 8) = some (some (1, 2)) ∧
    ∃ calls, S'.log = S.log ++ calls ∧
      ∀ net, SummaryPassed net calls (entryAt S.previous net) (entryAt S'.current net) := by
  have h0 : Reach StepOk ⟨.v2, acceptAll, false, none, none, []⟩ := .init .v2 acceptAll
  have h1 := h0.step (.beginTransaction 0) trivial trivial rfl
  have h2 := h1.step (.addEntry 0 (any 8) (backboneRoute false 1)) trivial trivial rfl
  have h3 := h2.step .endTransaction trivial (fun t _ net p c hp => absurd hp nofun) rfl
  have h4 := h3.step (.beginTransaction 0) trivial trivial rfl
  have h5 := h4.step (.addEntry 0 (any 8) (backboneRoute false 2)) trivial trivial rfl
  have hres := rib_in_step (fun _ _ h => h) h5 (fun t ht net p c hp hc _ hcost => by
    cases ht
    have hnet : net = any 8 := by
      obtain ⟨ire, hlook, -⟩ := map_eq_some_iff.mp hc
      exact congrArg Prod.fst (mem_singleton.mp (Table.mem_of_lookup hlook))
    subst hnet
    cases hp
    cases hc
    exact absurd hcost (by decide)) rfl
  exact ⟨_, _, h5, rfl, rfl, hres.1 _, hres.2⟩

/-- A directly connected network is next reached through a router, with the same nexthop and cost.
The comparison sees no difference, and the route is not added. -/
theorem unhidden_route_not_added : ∃ S S' : RoutingTable 8, Reach (fun _ _ => True) S ∧
    S.step .endTransaction = .ok S' ∧
    entryAt S'.current (IPNet.any 8) = some { backboneRoute false 1 with filtered := true } ∧
    expected S'.policy S'.current (IPNet.any 8) = some (1, 1) ∧
    installed S'.log (IPNet.any 8) = some none := by
  have h0 : Reach (fun _ _ => True) ⟨.v2, acceptAll, false, none, none, []⟩ := .init .v2 acceptAll
  have h1 := h0.step (.beginTransaction 0) trivial trivial rfl
  have h2 := h1.step (.addEntry 0 (any 8) (backboneRoute true 1)) trivial trivial rfl
  have h3 := h2.step .endTransaction trivial trivial rfl
  have h4 := h3.step (.beginTransaction 0) trivial trivial rfl
  have h5 := h4.step (.addEntry 0 (any 8) (backboneRoute false 1)) trivial trivial rfl
  exact ⟨_, _, h5, rfl, rfl, rfl, rfl⟩

end RoutingTable

end Xorp.Ospf

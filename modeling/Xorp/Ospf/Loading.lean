/-
A neighbour is brought up to Full.

The headers of a neighbour's database are compared with the area's own database, and what is
missing goes on a list of requests.  The neighbour is Full once the list is empty.  A request is
taken off in two places, and in neither because of what the database holds: publishing an LSA
takes off the request it answers, before the LSA is put in the database; and when an update has
been dealt with, every LSA in it takes off the request with its key, whether it was installed or
dropped.
-/
import Xorp.Ospf.Flooding

namespace Xorp.Ospf

open Linked List

/-- `Neighbour::State`. -/
inductive NeighbourState
  | down | attempt | init | twoWay | exStart | exchange | loading | full
deriving DecidableEq

/-- A header that was put on the list of requests, and what has happened since: whether the
database has held an instance as recent, and whether the LSA turned out to be one of the router's
own or to have reached MaxAge. -/
structure Requested where
  header : LsaHeader
  held : Bool
  excused : Bool
deriving DecidableEq

def Requested.settled (p : Requested) : Bool := p.held || p.excused

/-- A neighbour and the database of its area.  `put` and `done` only record: the headers that were
put on the list in this exchange, and how things stood with them when loading was done. -/
structure Session where
  db : Db
  state : NeighbourState
  requestList : List LsaHeader
  put : List Requested
  done : List Requested

namespace Session

def hasKey (k : LsRequest) (j : LsaHeader) : Bool := j.key = k

section
variable (w : Session)

/-- The database changes. -/
def setDb (db : Db) : Session :=
  { w with db := db, put := w.put.map fun p => { p with held := p.held || db.holds p.header } }

/-- There is no need to hold what these headers ask for. -/
def excuse (f : LsaHeader → Bool) : Session :=
  { w with put := w.put.map fun p => { p with excused := p.excused || f p.header } }

/-- The instance `i` is at least as recent as what the header `j` asks for.  If it has reached
MaxAge, the request has no more to ask for. -/
def covers (i j : LsaHeader) : Bool := j.key = i.key ∧ compareLsa i j ≠ .older

/-! ### The neighbour -/

def eventLoadingDone : Session :=
  if w.state = .loading then { w with state := .full, done := w.put } else w

/-- The end of every piece of code that takes requests off the list. -/
def loadingDoneIfEmpty : Session :=
  if w.requestList = [] then w.eventLoadingDone else w

/-- `event_SequenceNumberMismatch_or_BadLSReq`, with `tear_down_state`. -/
def startAgain : Session :=
  match w.state with
  | .exchange | .loading | .full => { w with state := .exStart, requestList := [], put := [] }
  | _ => w

def eventNegotiationDone : Session :=
  if w.state = .exStart then { w with state := .exchange } else w

def eventExchangeDone : Session :=
  if w.state = .exchange then loadingDoneIfEmpty { w with state := .loading } else w

/-- `queue_lsa`, as far as the list of requests goes. -/
def queueLsa (h : LsaHeader) : Session :=
  if w.state = .exchange ∨ w.state = .loading then
    match w.requestList.find? (hasKey h.key) with
    | none => w
    | some j =>
        if compareLsa h j = .older then w
        else
          loadingDoneIfEmpty { w with requestList := w.requestList.eraseP (hasKey h.key) }
  else w

end

section
variable (A : AreaRouter)

/-- `publish`, as far as this neighbour goes. -/
def publish (samePeer : Bool) (w : Session) (h : LsaHeader) : Session :=
  if A.queues samePeer h.key.lsType then w.queueLsa h else w

/-- One header in the loop of `extract_lsa_headers`. -/
def request (now : Int) (w : Session) (h : LsaHeader) : Session :=
  let w := w.setDb (w.db.freshen now h.key)
  match w.db.search h with
  | .noMatch | .newer =>
      { w with
        requestList := w.requestList ++ [h]
        put := w.put ++ [⟨h, false, h.age = maxAge || A.selfOriginated h false⟩] }
  | _ => w

/-- `extract_lsa_headers`.  In a stub area the decoder is asked about a type that it may not
have. -/
def extractLsaHeaders (A : AreaRouter) (now : Int) : Session → List LsaHeader → Except Fault Session
  | w, [] => .ok w
  | w, h :: rest =>
      if ¬ A.validate h.key.lsType then .ok w.startAgain
      else if A.areaType ≠ .normal ∧ ¬ A.known h.key.lsType then .error .assertion
      else if A.areaType ≠ .normal ∧ A.isExternal h.key.lsType then .ok w.startAgain
      else extractLsaHeaders A now (w.request A now h) rest

/-! ### Updates -/

/-- The body of the loop of `receive_lsas` for one LSA, but for the check of the sender's list of
requests. -/
def receiveLsa (now : Int) (samePeer : Bool) (w : Session) (i : LsaHeader) :
    Session :=
  let u := w.setDb (w.db.freshen now i.key)
  match A.verdict now u.db i with
  | .refused => w
  | .flushed => u.excuse (covers i)
  | .tooRecent => u
  | .own none => (u.excuse (hasKey i.key)).publish A samePeer { i with age := maxAge }
  | .own (some d) =>
      ((u.excuse (hasKey i.key)).setDb (u.db.put d)).publish A samePeer d.header
  | .install =>
      (u.publish A samePeer i.arrived).setDb (u.db.put (i.stored now))
  | .older => u
  | .equivalent => u

/-- Step (6) of `receive_lsas`: the sender was asked for this LSA, and it is older than what the
database has. -/
def badRequest (now : Int) (w : Session) (i : LsaHeader) : Bool :=
  match A.verdict now (w.db.freshen now i.key) i with
  | .older => w.requestList.any (hasKey i.key)
  | _ => false

/-- `receive_lsas` for an update from this neighbour. -/
def receiveLsas (A : AreaRouter) (now : Int) : Session → List LsaHeader → Session
  | w, [] => w
  | w, i :: rest =>
      if w.badRequest A now i then w.startAgain
      else receiveLsas A now (w.receiveLsa A now true i) rest

/-- The last loop of `link_state_update_received`: the first request with the key of each LSA. -/
def satisfyRequests : List LsaHeader → List LsaHeader → List LsaHeader
  | [], reqs => reqs
  | i :: rest, reqs => satisfyRequests rest (reqs.eraseP (hasKey i.key))

def linkStateUpdateReceived (now : Int) (w : Session) (lsas : List LsaHeader) :
    Session :=
  match w.state with
  | .exchange | .loading | .full =>
      let u := w.receiveLsas A now lsas
      if u.requestList = [] then u
      else loadingDoneIfEmpty { u with requestList := satisfyRequests lsas u.requestList }
  | _ => w

/-! ### Runs -/

/-- What can happen to a neighbour and its area. -/
inductive Op
  /-- The headers of a database description packet. -/
  | headers (now : Int) (hs : List LsaHeader)
  | negotiationDone
  | exchangeDone
  /-- A link state update from this neighbour. -/
  | update (now : Int) (lsas : List LsaHeader)
  /-- LSAs of an update from another neighbour in the area. -/
  | otherUpdate (now : Int) (samePeer : Bool) (lsas : List LsaHeader)
  /-- Any other LSA that the area publishes: it is in the database, or on its way out. -/
  | publish (samePeer : Bool) (h : LsaHeader)
  /-- Whatever else changes the database. -/
  | database (db : Db)
  /-- Any of the mismatches that `data_description_received` finds. -/
  | mismatch

def step (w : Session) : Op → Except Fault Session
  | .headers now hs =>
      if w.state = .exStart ∨ w.state = .exchange then w.extractLsaHeaders A now hs else .ok w
  | .negotiationDone => .ok w.eventNegotiationDone
  | .exchangeDone => .ok w.eventExchangeDone
  | .update now lsas => .ok (w.linkStateUpdateReceived A now lsas)
  | .otherUpdate now samePeer lsas => .ok (lsas.foldl (receiveLsa A now samePeer) w)
  | .publish samePeer h =>
      let w := w.setDb w.db
      .ok ((if h.age = maxAge then w.excuse (covers h) else w).publish A samePeer h)
  | .database db => .ok (w.setDb db)
  | .mismatch => .ok w.startAgain

/-- What an area publishes of its own accord is in its database or has reached MaxAge. -/
def Legal (w : Session) : Op → Prop
  | .publish _ h => h.age = maxAge ∨ ∃ l, w.db.find h.key = some l ∧ l.header = h
  | _ => True

/-- The states of a run, from the moment the neighbours start to negotiate. -/
inductive Reach (A : AreaRouter) (ok : Session → Op → Prop) : Session → Prop
  | init (db : Db) : Reach A ok ⟨db, .exStart, [], [], []⟩
  | step {w w' : Session} (op : Op) : Reach A ok w → w.Legal op → ok w op →
      w.step A op = .ok w' → Reach A ok w'

/-! ### When a request may go

Two conditions, one for each place that takes requests off the list. -/

/-- The database has held what the header asks for, or does not have to. -/
def Settled (w : Session) (j : LsaHeader) : Prop := ∀ p ∈ w.put, p.header = j → p.settled = true

/-- The LSA `i` is not just dropped: it is installed and is as recent as the header `j`, or the
database has an instance as recent already, or there is no need for one. -/
def Answers (now : Int) (w : Session) (i j : LsaHeader) : Prop :=
  i.key = j.key ∧
    match A.verdict now (w.db.freshen now i.key) i with
    | .refused => False
    | .flushed => compareLsa i j ≠ .older
    | .own _ => True
    | .install => compareLsa j i.arrived ≠ .newer
    | .tooRecent => (w.db.freshen now i.key).holds j = true
    | .older => (w.db.freshen now i.key).holds j = true
    | .equivalent => (w.db.freshen now i.key).holds j = true

/-- One of the LSAs of an update answers the request when its turn comes. -/
def AnsweredBy (A : AreaRouter) (now : Int) : Session → List LsaHeader → LsaHeader → Prop
  | _, [], _ => False
  | w, i :: rest, j =>
      w.Answers A now i j ∨ AnsweredBy A now (w.receiveLsa A now true i) rest j

/-- The requests that an update takes off the list have been answered, by the update or before. -/
def Answered (w : Session) : Op → Prop
  | .update now lsas =>
      ∀ j ∈ (w.receiveLsas A now lsas).requestList,
        j ∉ satisfyRequests lsas (w.receiveLsas A now lsas).requestList →
          w.Settled j ∨ w.AnsweredBy A now lsas j
  | _ => True

/-- Publishing the LSA ahead of installing it does not complete the loading. -/
def NotAhead (now : Int) (w : Session) (i : LsaHeader) : Prop :=
  ∀ j, w.state = .loading → w.requestList = [j] → j.key = i.key →
    compareLsa i.arrived j ≠ .older → A.verdict now (w.db.freshen now i.key) i = .install →
      (w.setDb (w.db.freshen now i.key)).Settled j

/-- No LSA of an update completes the loading ahead of its installation. -/
def InOrderBy (A : AreaRouter) (now : Int) (samePeer own : Bool) : Session → List LsaHeader → Prop
  | _, [] => True
  | w, i :: rest =>
      (own && w.badRequest A now i) = true ∨
        w.NotAhead A now i ∧ InOrderBy A now samePeer own (w.receiveLsa A now samePeer i) rest

def InOrder (w : Session) : Op → Prop
  | .update now lsas => w.InOrderBy A now true true lsas
  | .otherUpdate now samePeer lsas => w.InOrderBy A now samePeer false lsas
  | _ => True

end

/-! ### The invariant -/

variable {A : AreaRouter} {w : Session} {now : Int} {samePeer : Bool} {i j h : LsaHeader}
  {strict : Prop} {X Y : LsaHeader → Prop} {f : LsaHeader → Bool} {db : Db}

/-- Every header that was put on the list is still there, or is settled, or is one of those in
flight (`X`).  With `strict`, the headers were settled when loading was done. -/
structure Inv (strict : Prop) (X : LsaHeader → Prop) (w : Session) : Prop where
  pending : ∀ p ∈ w.put, p.header ∈ w.requestList ∨ p.settled = true ∨ X p.header
  empty : w.state = .full → w.requestList = []
  done : strict → w.state = .full → ∀ p ∈ w.done, p.settled = true

theorem Inv.of_ne_full
    (hpending : ∀ p ∈ w.put, p.header ∈ w.requestList ∨ p.settled = true ∨ X p.header)
    (hstate : w.state ≠ .full) : Inv strict X w :=
  ⟨hpending, fun h => absurd h hstate, fun _ h => absurd h hstate⟩

/-- No header is in flight. -/
def Landed : LsaHeader → Prop := fun _ => False

variable {lsas : List LsaHeader} {p : Requested}

theorem mem_put_setDb (hp : p ∈ (w.setDb db).put) :
    ∃ q ∈ w.put, p.header = q.header ∧ (q.settled = true → p.settled = true) ∧
      (db.holds q.header = true → p.settled = true) := by
  obtain ⟨q, hq, rfl⟩ := mem_map.mp hp
  refine ⟨q, hq, rfl, fun hs => ?_, fun hh => ?_⟩ <;> simp_all [Requested.settled]
  tauto

theorem mem_put_excuse (hp : p ∈ (w.excuse f).put) :
    ∃ q ∈ w.put, p.header = q.header ∧ (q.settled = true → p.settled = true) ∧
      (f q.header = true → p.settled = true) := by
  obtain ⟨q, hq, rfl⟩ := mem_map.mp hp
  refine ⟨q, hq, rfl, fun hs => ?_, fun hh => ?_⟩ <;> simp_all [Requested.settled]
  tauto

theorem Settled.setDb (hj : w.Settled j) : (w.setDb db).Settled j := by
  intro p hp hpj
  obtain ⟨q, hq, heq, hset, -⟩ := mem_put_setDb hp
  exact hset (hj q hq (heq ▸ hpj))

theorem settled_setDb (hj : db.holds j = true) : (w.setDb db).Settled j := by
  intro p hp hpj
  obtain ⟨q, -, heq, -, hheld⟩ := mem_put_setDb hp
  exact hheld ((heq.symm.trans hpj) ▸ hj)

theorem Settled.excuse (hj : w.Settled j) : (w.excuse f).Settled j := by
  intro p hp hpj
  obtain ⟨q, hq, heq, hset, -⟩ := mem_put_excuse hp
  exact hset (hj q hq (heq ▸ hpj))

theorem settled_excuse (hj : f j = true) : (w.excuse f).Settled j := by
  intro p hp hpj
  obtain ⟨q, -, heq, -, hkey⟩ := mem_put_excuse hp
  exact hkey ((heq.symm.trans hpj) ▸ hj)

section
variable (hw : Inv strict X w)
include hw

/-- The database changes, and what was in flight is in it. -/
theorem Inv.setDb (hX : ∀ j, X j → db.holds j = true ∨ Y j) : Inv strict Y (w.setDb db) where
  pending p hp := by
    obtain ⟨q, hq, heq, hset, hheld⟩ := mem_put_setDb hp
    rw [heq]
    rcases hw.pending q hq with hin | hs | hx
    · exact .inl hin
    · exact .inr (.inl (hset hs))
    · exact .inr ((hX _ hx).imp hheld id)
  empty := hw.empty
  done := hw.done

theorem Inv.excuse : Inv strict X (w.excuse f) where
  pending p hp := by
    obtain ⟨q, hq, heq, hset, -⟩ := mem_put_excuse hp
    rw [heq]
    exact (hw.pending q hq).imp id (Or.imp hset id)
  empty := hw.empty
  done := hw.done

/-- What was in flight turns out to be settled. -/
theorem Inv.land (hX : ∀ j, X j → w.Settled j) : Inv strict Landed w where
  pending p hp := by
    rcases hw.pending p hp with hin | hs | hx
    · exact .inl hin
    · exact .inr (.inl hs)
    · exact .inr (.inl (hX _ hx p hp rfl))
  empty := hw.empty
  done := hw.done

/-- Loading may be done once the list is empty and everything is settled. -/
theorem Inv.loadingDoneIfEmpty
    (hdone : strict → w.state = .loading → w.requestList = [] → ∀ p ∈ w.put, p.settled = true) :
    Inv strict X w.loadingDoneIfEmpty := by
  unfold Session.loadingDoneIfEmpty eventLoadingDone
  split_ifs with hnil hload
  · exact ⟨hw.pending, fun _ => hnil, fun hs _ => hdone hs hload hnil⟩
  · exact hw
  · exact hw

end

/-- The requests that publishing an LSA takes off the list. -/
def InFlight (h : LsaHeader) : LsaHeader → Prop :=
  fun j => j.key = h.key ∧ compareLsa h j ≠ .older

@[simp] theorem put_loadingDoneIfEmpty : w.loadingDoneIfEmpty.put = w.put := by
  unfold loadingDoneIfEmpty eventLoadingDone
  split_ifs <;> rfl

@[simp] theorem put_queueLsa : (w.queueLsa h).put = w.put := by
  unfold queueLsa
  split_ifs
  · cases w.requestList.find? (hasKey h.key) with
    | none => rfl
    | some j =>
      dsimp only
      split_ifs
      · rfl
      · exact put_loadingDoneIfEmpty
  · rfl

@[simp] theorem put_publish : (w.publish A samePeer h).put = w.put := by
  unfold publish
  split_ifs
  · exact put_queueLsa
  · rfl

section
variable (hw : Inv strict Landed w) (hlast : strict → ∀ j, w.state = .loading → w.requestList = [j] → InFlight h j → w.Settled j)
include hw hlast

theorem Inv.queueLsa : Inv strict (InFlight h) (w.queueLsa h) := by
  have hkeep : Inv strict (InFlight h) w :=
    ⟨fun p hp => (hw.pending p hp).imp id (Or.imp id False.elim), hw.empty, hw.done⟩
  unfold Session.queueLsa
  split_ifs with hstate
  · cases hfind : w.requestList.find? (hasKey h.key) with
    | none => exact hkeep
    | some j =>
      dsimp only
      split_ifs with hold
      · exact hkeep
      have hfly : InFlight h j :=
        ⟨of_decide_eq_true (List.find?_some (p := hasKey h.key) hfind), hold⟩
      have hperm := find?_perm hfind
      refine Inv.loadingDoneIfEmpty ⟨fun p hp => ?_, fun hfull => ?_, fun _ hfull => ?_⟩ ?_
      · rcases hw.pending p hp with hin | hs | hx
        · rcases mem_cons.mp (hperm.mem_iff.mp hin) with rfl | hin
          · exact .inr (.inr hfly)
          · exact .inl hin
        · exact .inr (.inl hs)
        · exact hx.elim
      · exact absurd hfull (by rcases hstate with h | h <;> rw [h] <;> decide)
      · exact absurd hfull (by rcases hstate with h | h <;> rw [h] <;> decide)
      · intro hs hload hnil p hp
        -- The request that goes was the last one.
        have hone : w.requestList = [j] := perm_singleton.mp (hnil ▸ hperm)
        rcases hw.pending p hp with hin | hset | hx
        · rw [hone, mem_singleton] at hin
          exact hlast hs j hload hone hfly p hp hin
        · exact hset
        · exact hx.elim
  · exact hkeep

theorem Inv.publish : Inv strict (InFlight h) (w.publish A samePeer h) := by
  unfold Session.publish
  split_ifs
  · exact hw.queueLsa hlast
  · exact ⟨fun p hp => (hw.pending p hp).imp id (Or.imp id False.elim), hw.empty, hw.done⟩

end

/-- Publishing an LSA whose requests are settled. -/
theorem Inv.publish_settled (hw : Inv strict Landed w) (hset : ∀ j, InFlight h j → w.Settled j) :
    Inv strict Landed (w.publish A samePeer h) := by
  refine (hw.publish fun _ j _ _ hj => hset j hj).land fun j hj => ?_
  intro p hp
  rw [put_publish] at hp
  exact hset j hj p hp

/-! ### An update -/

theorem Inv.receiveLsa (hw : Inv strict Landed w) (hahead : strict → w.NotAhead A now i) :
    Inv strict Landed (w.receiveLsa A now samePeer i) := by
  have hu : Inv strict Landed (w.setDb (w.db.freshen now i.key)) := hw.setDb fun _ hj => .inr hj
  unfold Session.receiveLsa
  dsimp only
  split
  case h_1 => exact hw
  case h_2 => exact hu.excuse
  case h_3 => exact hu
  case h_4 =>
    exact hu.excuse.publish_settled fun j hj => settled_excuse (decide_eq_true hj.1)
  case h_5 d hv =>
    refine Inv.publish_settled (hu.excuse.setDb fun _ hj => .inr hj) fun j hj => ?_
    exact Settled.setDb (settled_excuse (decide_eq_true (hj.1.trans (A.key_of_own hv))))
  case h_6 hv =>
    refine (hu.publish fun hs j hload hone hj => ?_).setDb fun j hj =>
      .inl (Db.holds_put hj.1 (compareLsa_ne_newer hj.2))
    exact hahead hs j hload hone hj.1 hj.2 hv
  case h_7 => exact hu
  case h_8 => exact hu

/-- What is settled stays settled. -/
theorem Settled.publish (hj : w.Settled j) : (w.publish A samePeer h).Settled j := by
  intro p hp
  rw [put_publish] at hp
  exact hj p hp

theorem Settled.receiveLsa (hj : w.Settled j) : (w.receiveLsa A now samePeer i).Settled j := by
  have hu : (w.setDb (w.db.freshen now i.key)).Settled j := hj.setDb
  unfold Session.receiveLsa
  dsimp only
  split
  case h_1 => exact hj
  case h_2 => exact hu.excuse
  case h_3 => exact hu
  case h_4 => exact hu.excuse.publish
  case h_5 => exact hu.excuse.setDb.publish
  case h_6 => exact hu.publish.setDb
  case h_7 => exact hu
  case h_8 => exact hu

theorem settled_of_answers (ha : w.Answers A now i j) :
    (w.receiveLsa A now samePeer i).Settled j := by
  obtain ⟨hk, ha⟩ := ha
  unfold Session.receiveLsa
  dsimp only
  set D := w.db.freshen now i.key
  have hheld : D.holds j = true → (w.setDb D).Settled j := settled_setDb
  have hv : A.verdict now (w.setDb D).db i = A.verdict now D i := rfl
  rw [hv]
  split at ha
  case h_1 => exact ha.elim
  case h_2 heq => rw [heq]; exact settled_excuse (decide_eq_true ⟨hk.symm, ha⟩)
  case h_3 heq =>
    rw [heq]
    cases ‹Option StoredLsa› with
    | none => exact (settled_excuse (decide_eq_true hk.symm)).publish
    | some d => exact (settled_excuse (decide_eq_true hk.symm)).setDb.publish
  case h_4 heq =>
    rw [heq]
    exact settled_setDb (Db.holds_put hk.symm ha)
  case h_5 heq => rw [heq]; exact hheld ha
  case h_6 heq => rw [heq]; exact hheld ha
  case h_7 heq => rw [heq]; exact hheld ha

/-- The states in which updates are received. -/
def Active (w : Session) : Prop := w.state = .exchange ∨ w.state = .loading ∨ w.state = .full

theorem Active.loadingDoneIfEmpty (hw : w.Active) : w.loadingDoneIfEmpty.Active := by
  unfold Session.loadingDoneIfEmpty eventLoadingDone
  split_ifs
  · exact .inr (.inr rfl)
  · exact hw
  · exact hw

theorem Active.publish (hw : w.Active) : (w.publish A samePeer h).Active := by
  unfold Session.publish Session.queueLsa
  split_ifs
  · split
    · exact hw
    · split_ifs
      · exact hw
      · exact Active.loadingDoneIfEmpty hw
  · exact hw
  · exact hw

theorem Active.receiveLsa (hw : w.Active) : (w.receiveLsa A now samePeer i).Active := by
  have hu : (w.setDb (w.db.freshen now i.key)).Active := hw
  unfold Session.receiveLsa
  dsimp only
  split
  case h_1 => exact hw
  case h_2 => exact hu
  case h_3 => exact hu
  case h_4 => exact Active.publish hu
  case h_5 => exact Active.publish hu
  case h_6 => exact Active.publish hu
  case h_7 => exact hu
  case h_8 => exact hu

theorem put_startAgain (hw : w.Active) : w.startAgain.put = [] := by
  rcases hw with h | h | h <;> rw [startAgain, h]

theorem Inv.startAgain (hw : Inv strict Landed w) : Inv strict Landed w.startAgain := by
  unfold Session.startAgain
  split
  · exact .of_ne_full (fun p hp => (not_mem_nil hp).elim) nofun
  · exact .of_ne_full (fun p hp => (not_mem_nil hp).elim) nofun
  · exact .of_ne_full (fun p hp => (not_mem_nil hp).elim) nofun
  · exact hw

/-- A request that an LSA of the update answers is settled when all have been dealt with. -/
theorem settled_receiveLsas (hw : w.Active) (hj : w.Settled j ∨ w.AnsweredBy A now lsas j) :
    (w.receiveLsas A now lsas).Settled j := by
  induction lsas generalizing w with
  | nil => exact hj.resolve_right id
  | cons i rest ih =>
    unfold receiveLsas
    split_ifs with hbad
    · intro p hp
      rw [put_startAgain hw] at hp
      exact (not_mem_nil hp).elim
    · refine ih hw.receiveLsa (hj.elim (fun h => .inl h.receiveLsa) fun h => ?_)
      exact h.imp settled_of_answers id

theorem Inv.receiveLsas (hw : Inv strict Landed w)
    (hord : strict → w.InOrderBy A now true true lsas) :
    Inv strict Landed (w.receiveLsas A now lsas) := by
  induction lsas generalizing w with
  | nil => exact hw
  | cons i rest ih =>
    unfold Session.receiveLsas
    split_ifs with hbad
    · exact hw.startAgain
    · have hcons : strict → w.NotAhead A now i ∧
          InOrderBy A now true true (w.receiveLsa A now true i) rest := fun hs =>
        (hord hs).resolve_left (by rw [Bool.true_and]; exact hbad)
      exact ih (hw.receiveLsa fun hs => (hcons hs).1) fun hs => (hcons hs).2

theorem Inv.foldl_receiveLsa (hw : Inv strict Landed w)
    (hord : strict → w.InOrderBy A now samePeer false lsas) :
    Inv strict Landed (lsas.foldl (Session.receiveLsa A now samePeer) w) := by
  induction lsas generalizing w with
  | nil => exact hw
  | cons i rest ih =>
    have hcons : strict → w.NotAhead A now i ∧
        InOrderBy A now samePeer false (w.receiveLsa A now samePeer i) rest := fun hs =>
      (hord hs).resolve_left (by rw [Bool.false_and]; exact Bool.false_ne_true)
    exact ih (hw.receiveLsa fun hs => (hcons hs).1) fun hs => (hcons hs).2

theorem satisfyRequests_nil : satisfyRequests lsas [] = [] := by
  induction lsas with
  | nil => rfl
  | cons i rest ih => exact ih

section
variable (hw : Inv strict Landed w)
include hw

theorem Inv.linkStateUpdateReceived (hans : w.Answered A (.update now lsas))
    (hord : strict → w.InOrder A (.update now lsas)) :
    Inv strict Landed (w.linkStateUpdateReceived A now lsas) := by
  by_cases hact : w.Active
  · have hu : Inv strict Landed (w.receiveLsas A now lsas) := hw.receiveLsas hord
    set u := w.receiveLsas A now lsas with hdef
    have hrest : Inv strict Landed { u with
        requestList := satisfyRequests lsas u.requestList } := by
      refine ⟨fun p hp => ?_, fun hfull => ?_, hu.done⟩
      · rcases hu.pending p hp with hin | hs
        · by_cases hstay : p.header ∈ satisfyRequests lsas u.requestList
          · exact .inl hstay
          · have hset := settled_receiveLsas hact (hans p.header hin hstay)
            exact .inr (.inl (hset p hp rfl))
        · exact .inr hs
      · rw [hu.empty hfull, satisfyRequests_nil]
    have heq : w.linkStateUpdateReceived A now lsas =
        if u.requestList = [] then u
        else Session.loadingDoneIfEmpty { u with
          requestList := satisfyRequests lsas u.requestList } := by
      rcases hact with h | h | h <;> rw [Session.linkStateUpdateReceived, h]
    rw [heq]
    split_ifs
    · exact hu
    · refine hrest.loadingDoneIfEmpty fun _ _ hnil p hp => ?_
      rcases hrest.pending p hp with hin | hs | hx
      · rw [hnil] at hin
        exact (not_mem_nil hin).elim
      · exact hs
      · exact hx.elim
  · have heq : w.linkStateUpdateReceived A now lsas = w := by
      unfold Session.linkStateUpdateReceived
      split
      · exact absurd (.inl ‹_›) hact
      · exact absurd (.inr (.inl ‹_›)) hact
      · exact absurd (.inr (.inr ‹_›)) hact
      · rfl
    rw [heq]
    exact hw

/-! ### Runs -/

theorem Inv.request (hstate : w.state ≠ .full) : Inv strict Landed (w.request A now h) := by
  have hu : Inv strict Landed (w.setDb (w.db.freshen now h.key)) := hw.setDb fun _ hj => .inr hj
  have hput : ∀ q : Requested, q.header = h → Inv strict Landed
      { w.setDb (w.db.freshen now h.key) with
        requestList := w.requestList ++ [h]
        put := (w.setDb (w.db.freshen now h.key)).put ++ [q] } := by
    intro q hq
    refine ⟨fun p hp => ?_, fun hfull => absurd hfull hstate, hu.done⟩
    rcases mem_append.mp hp with hp | hp
    · exact (hu.pending p hp).imp (mem_append_left _) id
    · rw [mem_singleton.mp hp, hq]
      exact .inl (mem_append_right _ (mem_singleton_self h))
  unfold Session.request
  dsimp only
  split
  · exact hput _ rfl
  · exact hput _ rfl
  · exact hu

theorem Inv.extractLsaHeaders {hs : List LsaHeader} {w' : Session} (hstate : w.state ≠ .full)
    (hrun : w.extractLsaHeaders A now hs = .ok w') : Inv strict Landed w' := by
  induction hs generalizing w with
  | nil =>
    cases hrun
    exact hw
  | cons h rest ih =>
    unfold Session.extractLsaHeaders at hrun
    split_ifs at hrun
    · cases hrun
      exact hw.startAgain
    · refine ih (hw.request hstate) ?_ hrun
      unfold Session.request
      dsimp only
      split <;> exact hstate
    · cases hrun
      exact hw.startAgain

theorem Inv.eventExchangeDone : Inv strict Landed w.eventExchangeDone := by
  unfold Session.eventExchangeDone
  split_ifs
  · refine Inv.loadingDoneIfEmpty (.of_ne_full hw.pending nofun) ?_
    intro _ _ hnil p hp
    rcases hw.pending p hp with hin | hs | hx
    · have hnil : w.requestList = [] := hnil
      rw [hnil] at hin
      exact (not_mem_nil hin).elim
    · exact hs
    · exact hx.elim
  · exact hw

/-- What the area publishes of its own accord is settled. -/
theorem Inv.publishOp (hl : w.Legal (.publish samePeer h)) : Inv strict Landed
      ((if h.age = maxAge then (w.setDb w.db).excuse (covers h) else w.setDb w.db).publish
        A samePeer h) := by
  have hu : Inv strict Landed (w.setDb w.db) := hw.setDb fun _ hj => .inr hj
  split_ifs with hage
  · exact hu.excuse.publish_settled fun j hj => settled_excuse (decide_eq_true hj)
  · obtain ⟨l, hl, rfl⟩ := hl.resolve_left hage
    refine hu.publish_settled fun j hj => settled_setDb ?_
    exact Db.holds_of_some (by rw [hj.1]; exact hl) (compareLsa_ne_newer hj.2)

theorem Inv.step {op : Op} {w' : Session} (hl : w.Legal op) (hans : w.Answered A op)
    (hord : strict → w.InOrder A op) (hrun : w.step A op = .ok w') : Inv strict Landed w' := by
  cases op with
  | headers now hs =>
    unfold Session.step at hrun
    split_ifs at hrun with hstate
    · refine hw.extractLsaHeaders ?_ hrun
      rcases hstate with h | h <;> rw [h] <;> decide
    · cases hrun
      exact hw
  | negotiationDone =>
    cases hrun
    unfold eventNegotiationDone
    split_ifs
    · exact .of_ne_full hw.pending nofun
    · exact hw
  | exchangeDone =>
    cases hrun
    exact hw.eventExchangeDone
  | update now lsas =>
    cases hrun
    exact hw.linkStateUpdateReceived hans hord
  | otherUpdate now samePeer lsas =>
    cases hrun
    exact hw.foldl_receiveLsa hord
  | publish samePeer h =>
    cases hrun
    exact hw.publishOp hl
  | database db =>
    cases hrun
    exact hw.setDb fun _ hj => .inr hj
  | mismatch =>
    cases hrun
    exact hw.startAgain

end

variable {ok : Session → Op → Prop}

theorem Reach.inv (hans : ∀ w op, ok w op → w.Answered A op)
    (hord : strict → ∀ w op, ok w op → w.InOrder A op) (h : Reach A ok w) :
    Inv strict Landed w := by
  induction h with
  | init db => exact .of_ne_full (fun p hp => (not_mem_nil hp).elim) nofun
  | step op _ hl hop hrun ih =>
    exact ih.step hl (hans _ _ hop) (fun hs => hord hs _ _ hop) hrun

theorem Reach.settled (hans : ∀ w op, ok w op → w.Answered A op) (h : Reach A ok w)
    (hfull : w.state = .full) (hp : p ∈ w.put) : p.settled = true := by
  have hw : Inv False Landed w := h.inv hans False.elim
  rcases hw.pending p hp with hin | hs | hx
  · rw [hw.empty hfull] at hin
    exact (not_mem_nil hin).elim
  · exact hs
  · exact hx.elim

/-- **Loading is done when everything asked for has been held.**  In a run in which no update takes
a request off the list that it did not answer, the database has held every header on the list at
the end of the step in which the neighbour becomes Full.  If besides publishing an LSA never
completes the loading ahead of installing it, it had done so when loading was done. -/
theorem loading_done_synchronised (A : AreaRouter) (hans : ∀ w op, ok w op → w.Answered A op)
    {w : Session} (h : Reach A ok w) (hfull : w.state = .full) :
    (∀ p ∈ w.put, p.held = true ∨ p.excused = true) ∧
      ((∀ w op, ok w op → w.InOrder A op) → ∀ p ∈ w.done, p.held = true ∨ p.excused = true) := by
  refine ⟨fun p hp => Bool.or_eq_true_iff.mp (h.settled hans hfull hp), fun hord p hp => ?_⟩
  have hw : Inv True Landed w := h.inv hans fun _ => hord
  exact Bool.or_eq_true_iff.mp (hw.done trivial hfull p hp)

/-! ### Two runs -/

/-- An ordinary area of OSPFv2. -/
def plainArea : AreaRouter := ⟨.v2, .normal, 1, [], false, fun _ => 0⟩

/-- The router LSA of a neighbour, at a sequence number. -/
def routerLsa (seqno : Int) : LsaHeader := ⟨⟨1, 2, 2⟩, seqno, 0, 1⟩

def noLsas : Db := ⟨fun _ => none, nofun⟩

/-- The LSA that is asked for arrives while the headers are still being exchanged. -/
theorem loading_done_synchronised_flooded : ∃ w, Reach plainArea
    (fun w op => w.Answered plainArea op ∧ w.InOrder plainArea op) w ∧ w.state = .full ∧
      w.done.map Requested.header = [routerLsa 5] ∧
      ∀ p ∈ w.done, p.held = true ∨ p.excused = true := by
  have h0 : Reach plainArea (fun w op => w.Answered plainArea op ∧ w.InOrder plainArea op)
      ⟨noLsas, .exStart, [], [], []⟩ := .init noLsas
  have h1 := h0.step .negotiationDone trivial ⟨trivial, trivial⟩ rfl
  have h2 := h1.step (.headers 0 [routerLsa 5]) trivial ⟨trivial, trivial⟩ rfl
  have h3 := h2.step (.update 0 [routerLsa 5]) trivial
    ⟨fun _ hj => (not_mem_nil hj).elim, .inr ⟨nofun, trivial⟩⟩ rfl
  have h4 := h3.step .exchangeDone trivial ⟨trivial, trivial⟩ rfl
  exact ⟨_, h4, rfl, rfl, (loading_done_synchronised plainArea (fun _ _ h => h.1) h4 rfl).2
    fun _ _ h => h.2⟩

/-- The neighbour has a newer instance of an LSA that the database got half a second ago.  The
instance that it sends is dropped, its request is gone all the same, and the neighbour is Full while
the database keeps the old instance. -/
theorem dropped_lsa_is_full : ∃ w, Reach plainArea (fun _ _ => True) w ∧ w.state = .full ∧
    (∃ p ∈ w.done, p.header = routerLsa 5 ∧ p.held = false ∧ p.excused = false) ∧
    w.db.find (routerLsa 5).key = some ((routerLsa 4).stored 0) := by
  have h0 : Reach plainArea (fun _ _ => True)
      ⟨noLsas.put ((routerLsa 4).stored 0), .exStart, [], [], []⟩ := .init _
  have h1 := h0.step .negotiationDone trivial trivial rfl
  have h2 := h1.step (.headers 500000 [routerLsa 5]) trivial trivial rfl
  have h3 := h2.step .exchangeDone trivial trivial rfl
  have h4 := h3.step (.update 500000 [routerLsa 5]) trivial trivial rfl
  exact ⟨_, h4, rfl, ⟨⟨routerLsa 5, false, false⟩, by decide, rfl, rfl, rfl⟩, rfl⟩

end Session

end Xorp.Ospf

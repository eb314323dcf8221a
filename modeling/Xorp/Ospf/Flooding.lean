/-
How an area decides what to do with a received LSA.

The area compares the LSA with the copy in its database and installs it when it is new or newer.
There are several ways for an LSA not to get that far, and only the receiving loop knows which one
was taken: the area does not take its type, it has reached MaxAge, the copy in the database
arrived less than a second ago, or this router is its originator.  `verdict` names the outcome, so
that what follows from it can be stated for one LSA at a time.
-/
import Xorp.Ospf.Database

namespace Xorp.Ospf

inductive Version
  | v2 | v3
deriving DecidableEq

inductive AreaType
  | normal | stub | nssa
deriving DecidableEq

/-- `Lsa_header`, without the options and the length. -/
structure LsaHeader where
  key : LsRequest
  seqno : Int
  checksum : Nat
  age : Nat
deriving DecidableEq

/-- `OspfTypes::MaxAge`, in seconds. -/
def maxAge : Nat := 3600

/-- `OspfTypes::MaxAgeDiff`, in seconds. -/
def maxAgeDiff : Nat := 900

def maxSequenceNumber : Int := 0x7fffffff

/-- One second, in the microseconds that times are counted in here. -/
def second : Int := 1000000

def minLSArrival : Int := 1 * second

inductive LsaSearch
  | noMatch | equivalent | newer | older
deriving DecidableEq

/-- `compare_lsa` of two headers. -/
def compareLsa (candidate current : LsaHeader) : LsaSearch :=
  if candidate.seqno < current.seqno then .older
  else if current.seqno < candidate.seqno then .newer
  else if candidate.checksum < current.checksum then .older
  else if current.checksum < candidate.checksum then .newer
  else if current.age = candidate.age then .equivalent
  else if current.age = maxAge then .older
  else if candidate.age = maxAge then .newer
  else if maxAgeDiff < ((current.age : Int) - candidate.age).natAbs then
    if candidate.age < current.age then .newer else .older
  else .equivalent

/-- What is at least as recent as another is not older the other way round. -/
theorem compareLsa_ne_newer {a b : LsaHeader} (h : compareLsa a b ≠ .older) :
    compareLsa b a ≠ .newer := by
  intro hn
  refine h ?_
  -- the tests of the source in their order: each decides both comparisons, or neither
  rcases Int.lt_trichotomy a.seqno b.seqno with hs | hs | hs
  · rw [compareLsa, if_pos hs]
  · have hab : ¬ a.seqno < b.seqno := by omega
    have hba : ¬ b.seqno < a.seqno := by omega
    rcases Nat.lt_trichotomy a.checksum b.checksum with hc | hc | hc
    · rw [compareLsa, if_neg hab, if_neg hba, if_pos hc]
    · have hcab : ¬ a.checksum < b.checksum := by omega
      have hcba : ¬ b.checksum < a.checksum := by omega
      rw [compareLsa, if_neg hba, if_neg hab, if_neg hcba, if_neg hcab] at hn
      rw [compareLsa, if_neg hab, if_neg hba, if_neg hcab, if_neg hcba]
      by_cases hage : a.age = b.age
      · rw [if_pos hage] at hn
        cases hn
      · rw [if_neg hage] at hn
        rw [if_neg (Ne.symm hage)]
        by_cases hb : b.age = maxAge
        · rw [if_pos hb]
        · by_cases ha : a.age = maxAge
          · rw [if_pos ha] at hn
            cases hn
          · have hdiff : ((b.age : Int) - a.age).natAbs = ((a.age : Int) - b.age).natAbs := by omega
            rw [hdiff]
            split_ifs at hn ⊢
            · omega
            · rfl
    · rw [compareLsa, if_neg hba, if_neg hab, if_pos hc] at hn
      cases hn
  · rw [compareLsa, if_pos hs] at hn
    cases hn

/-! ### The database -/

/-- An LSA of the database: `_header`, `_initial_age`, `_creation` and `_self_originating`. -/
structure StoredLsa where
  header : LsaHeader
  initialAge : Nat
  creation : Int
  selfOriginating : Bool
deriving DecidableEq

/-- The valid LSAs of the database, as `find_lsa` finds them. -/
structure Db where
  find : LsRequest → Option StoredLsa
  keyed : ∀ {k l}, find k = some l → l.header.key = k

/-- An LSA in the place of the one with its key. -/
def Db.put (db : Db) (l : StoredLsa) : Db where
  find := Function.update db.find l.header.key (some l)
  keyed {k m} hm := by
    by_cases hk : k = l.header.key
    · subst hk
      rw [Function.update_self] at hm
      rw [← Option.some.inj hm]
    · rw [Function.update_of_ne hk] at hm
      exact db.keyed hm

/-- `add_age`, on 16 bits. -/
def addAge (current : Nat) (delta : Int) : Nat :=
  let age := ((current + delta) % 65536).toNat
  if age < maxAge then age else maxAge

def StoredLsa.updateAge (l : StoredLsa) (now : Int) : StoredLsa :=
  { l with header := { l.header with age := addAge l.initialAge ((now - l.creation) / second) } }

/-- What `compare_lsa` does to the database first: the age of the copy it looks at is brought up to
date. -/
def Db.freshen (db : Db) (now : Int) (k : LsRequest) : Db :=
  match db.find k with
  | none => db
  | some l => if l.header.age = maxAge then db else db.put (l.updateAge now)

/-- `compare_lsa` of a header with the database, once the age is up to date. -/
def Db.search (db : Db) (h : LsaHeader) : LsaSearch :=
  match db.find h.key with
  | none => .noMatch
  | some l => compareLsa h l.header

/-- The database holds an instance of the LSA that is at least as recent as the header. -/
def Db.holds (db : Db) (h : LsaHeader) : Bool :=
  match db.find h.key with
  | none => false
  | some l => compareLsa h l.header ≠ .newer

variable {h : LsaHeader} {l : StoredLsa} {db : Db}

theorem Db.holds_of_some (hl : db.find h.key = some l) (hc : compareLsa h l.header ≠ .newer) :
    db.holds h = true := by
  rw [Db.holds, hl]
  exact decide_eq_true hc

theorem Db.holds_put (hk : h.key = l.header.key) (hc : compareLsa h l.header ≠ .newer) :
    (db.put l).holds h = true :=
  Db.holds_of_some (by rw [hk]; exact Function.update_self ..) hc

/-! ### The area -/

/-- What receiving an LSA reads of the area and of the router.  `checksum` is what `encode` puts in
the header of an LSA of this router, and `interfaces` are the addresses that `known_interface_address`
knows. -/
structure AreaRouter where
  version : Version
  areaType : AreaType
  routerId : BitVec 32
  interfaces : List (BitVec 32)
  virtualLink : Bool
  checksum : StoredLsa → Nat

namespace AreaRouter

variable (A : AreaRouter)

/-- The types that `initialise_lsa_decoder` registers. -/
def knownTypes : Version → List (BitVec 16)
  | .v2 => [1, 2, 3, 4, 5, 7]
  | .v3 => [0x2001, 0x2002, 0x2003, 0x2004, 0x4005, 0x2007, 8, 0x2009]

section
variable (t : BitVec 16)

/-- `Lsa::known`, and whether the decoder has an entry for the type. -/
def known : Bool := (knownTypes A.version).contains t

/-- `LsaDecoder::validate`: in OSPFv3 there is a decoder for unknown types. -/
def validate : Bool := A.version = .v3 || A.known t

/-- `Lsa::external`. -/
def isExternal : Bool :=
  match A.version with
  | .v2 => t = 5
  | .v3 => t = 0x4005

def type7 : Bool :=
  match A.version with
  | .v2 => t = 7
  | .v3 => t = 0x2007

def understood : Bool := A.known t || t &&& 0x8000 = 0x8000

def linkLocalScope : Bool := !A.understood t || t &&& 0x6000 = 0

def areaScope : Bool := A.understood t && t &&& 0x6000 = 0x2000

/-- Step (3) of `receive_lsas`: the types that an area of this kind does not take. -/
def refuses : Bool :=
  let leavesArea := A.version = .v3 && !A.linkLocalScope t && !A.areaScope t
  match A.areaType with
  | .normal => A.type7 t
  | .stub => A.type7 t || A.isExternal t || leavesArea
  | .nssa => A.isExternal t || leavesArea

end

/-- The first half of `self_originated`: is this an LSA of this router?  `isOwn` says that the
database has the LSA as one of the router's own. -/
def selfOriginated (h : LsaHeader) (isOwn : Bool) : Bool :=
  isOwn || h.key.advertisingRouter = A.routerId
    || (A.version = .v2 && h.key.lsType = 2 && A.interfaces.contains h.key.linkStateId)

/-- The second half of `self_originated` when the database has the LSA as the router's own: the
copy is moved past the sequence number that was received. -/
def renumber (d : StoredLsa) (seqno : Int) : StoredLsa :=
  let d := { d with header := { d.header with seqno := seqno } }
  let d :=
    if seqno = maxSequenceNumber then { d with header := { d.header with age := maxAge } }
    else { d with header := { d.header with seqno := seqno + 1 } }
  { d with header := { d.header with checksum := A.checksum d } }

/-- What `receive_lsas` does with one LSA. -/
inductive Verdict
  /-- Dropped: the area does not take the type. -/
  | refused
  /-- Dropped: it has reached MaxAge and the database does not have it. -/
  | flushed
  /-- Dropped: the copy in the database is less than `MinLSArrival` old. -/
  | tooRecent
  /-- It is an LSA of this router.  The copy in the database, if there is one, is what is
  published. -/
  | own (copy : Option StoredLsa)
  /-- Published and put in the database. -/
  | install
  /-- The copy in the database is newer. -/
  | older
  /-- The database has it. -/
  | equivalent

/-- The decisions of `receive_lsas` about an LSA that the database does not have. -/
def verdictMissing (i : LsaHeader) : Verdict :=
  if i.age = maxAge then .flushed
  else if A.selfOriginated i false then .own none
  else .install

/-- The decisions of `receive_lsas` about an LSA of which the database has the copy `d`. -/
def verdictFound (now : Int) (i : LsaHeader) (d : StoredLsa) : Verdict :=
  match compareLsa i d.header with
  | .newer =>
      if now - d.creation < minLSArrival then .tooRecent
      else if A.selfOriginated i d.selfOriginating then
        .own (some (if d.selfOriginating then A.renumber d i.seqno else d))
      else .install
  | .older => .older
  | _ => .equivalent

/-- The decisions of `receive_lsas` about one LSA, `db` being the database with its age up to
date. -/
def verdict (now : Int) (db : Db) (i : LsaHeader) : Verdict :=
  if A.refuses i.key.lsType then .refused
  else
    match db.find i.key with
    | none => A.verdictMissing i
    | some d => A.verdictFound now i d

/-- Whether `publish` of an LSA of this type gets as far as the neighbours of a peer
(`Peer::accept_lsa`, and the first check of `queue_lsa`).  `samePeer` says that the LSA came in on
that peer. -/
def queues (samePeer : Bool) (t : BitVec 16) : Bool :=
  !(A.virtualLink && A.isExternal t) && (A.version = .v2 || !A.linkLocalScope t || samePeer)

theorem key_renumber (d : StoredLsa) (n : Int) : (A.renumber d n).header.key = d.header.key := by
  unfold renumber
  split_ifs <;> rfl

/-- The copy of an LSA of this router has the key of what was received. -/
theorem key_of_own {now : Int} {i : LsaHeader} {d : StoredLsa}
    (h : A.verdict now db i = .own (some d)) : d.header.key = i.key := by
  unfold verdict at h
  split_ifs at h
  cases hd : db.find i.key with
  | none =>
    simp only [hd, verdictMissing] at h
    split_ifs at h
    cases h
  | some e =>
    simp only [hd, verdictFound] at h
    have he := db.keyed hd
    split at h
    · split_ifs at h with hrec hown hself
      · cases h
        rw [key_renumber, he]
      · cases h
        exact he
    · cases h
    · cases h

end AreaRouter

/-- A received LSA as `publish` leaves it, with the age that a database shows. -/
def LsaHeader.arrived (i : LsaHeader) : LsaHeader := { i with age := addAge i.age 0 }

/-- A received LSA as the database has it, after `record_creation_time` and `publish`. -/
def LsaHeader.stored (i : LsaHeader) (now : Int) : StoredLsa := ⟨i.arrived, i.age, now, false⟩

end Xorp.Ospf

/-
Prefixes as text.

`IPNet(const char*)` takes what stands after the last slash for the prefix length and what
stands before it for the address.  The digits go through `atoi` into the eight bits of
`_prefix_len`, and only what is left there is compared with the width of an address.  So a
length that is too large by a multiple of 256 is taken for a short one.  How an address is
written is left to `inet_pton` and `inet_ntop`, which are parameters.
-/
import Xorp.Net.IPNet

namespace Xorp

open Option List

namespace IPNet

/-- The two exceptions of the constructor. -/
inductive TextError where
  | invalidString (why : String)
  | invalidNetmaskLength (len : Nat)
deriving DecidableEq

/-- The text before the last slash and the text after it, by `strrchr`. -/
def splitSlash : List Char → Option (List Char × List Char)
  | [] => none
  | c :: cs =>
      match splitSlash cs with
      | some (addr, ds) => some (c :: addr, ds)
      | none => if c = '/' then some ([], cs) else none

def isDigit (c : Char) : Bool := '0' ≤ c && c ≤ '9'

/-- The number that digits stand for. -/
def decimal (ds : List Char) : Nat := ds.foldl (fun n c => 10 * n + (c.toNat - '0'.toNat)) 0

/-- `atoi` and the assignment to a `uint8_t`.  The conversion is by `strtol`, which stops
at the largest `long`. -/
def atoi (ds : List Char) : Nat := min (decimal ds) (2 ^ 63 - 1) % 256

variable {w : Nat} (inetPton : List Char → Option (BitVec w)) (inetNtop : BitVec w → List Char)

def initializeFromString (cp : List Char) : Except TextError (IPNet w) :=
  match splitSlash cp with
  | none => .error (.invalidString "Missing slash")
  | some (addr, ds) =>
      if ds = [] then .error (.invalidString "Missing prefix length")
      else if ds.all isDigit = false then .error (.invalidString "Bad prefix length")
      else match inetPton addr with
        | none =>
            let family := if w = 32 then "IPv4" else "IPv6"
            .error (.invalidString ("Bad " ++ family ++ " \"" ++ String.ofList addr ++ "\""))
        | some a =>
            -- thrown by `make_prefix`, which sees the eight bits
            if h : atoi ds ≤ w then .ok (ofAddr a (atoi ds) h)
            else .error (.invalidNetmaskLength (atoi ds))

def str (net : IPNet w) : List Char :=
  inetNtop net.maskedAddr ++ '/' :: Nat.toDigits 10 net.prefixLen

/-- An address, a slash and a decimal number. -/
def Written (s : List Char) (a : BitVec w) (n : Nat) : Prop :=
  ∃ addr ds, s = addr ++ '/' :: ds ∧ inetPton addr = some a ∧ ds ≠ [] ∧
    ds.all isDigit = true ∧ decimal ds = n

/-- The length is out of range, and what is left of it is not. -/
def Wraps (s : List Char) : Prop :=
  ∃ a n, Written inetPton s a n ∧ w < n ∧ min n (2 ^ 63 - 1) % 256 ≤ w

theorem splitSlash_append {ds : List Char} (hds : '/' ∉ ds) (addr : List Char) :
    splitSlash (addr ++ '/' :: ds) = some (addr, ds) := by
  have hnone : splitSlash ds = none := by
    induction ds with
    | nil => rfl
    | cons c cs ih =>
      rw [mem_cons, not_or] at hds
      rw [splitSlash, ih hds.2]
      exact if_neg (Ne.symm hds.1)
  induction addr with
  | nil => simp [splitSlash, hnone]
  | cons c cs ih => rw [cons_append, splitSlash, ih]

theorem eq_append_of_splitSlash {s addr ds : List Char} (h : splitSlash s = some (addr, ds)) :
    s = addr ++ '/' :: ds := by
  induction s generalizing addr with
  | nil => simp [splitSlash] at h
  | cons c cs ih =>
    rw [splitSlash] at h
    cases hcs : splitSlash cs with
    | some e =>
      rw [hcs] at h
      obtain ⟨rfl, rfl⟩ := Prod.mk.inj (some.inj h)
      rw [ih hcs, cons_append]
    | none =>
      rw [hcs] at h
      by_cases hc : c = '/'
      · obtain ⟨rfl, rfl⟩ := Prod.mk.inj (some.inj ((if_pos hc).symm.trans h))
        rw [hc, nil_append]
      · exact absurd ((if_neg hc).symm.trans h) (by simp)

theorem slash_not_mem {ds : List Char} (h : ds.all isDigit = true) : '/' ∉ ds := fun hm =>
  absurd (all_eq_true.mp h _ hm) (by decide)

variable {inetPton}

/-- A text is written in one way only. -/
theorem Written.unique {s : List Char} {a b : BitVec w} {m n : Nat} (h : Written inetPton s a m)
    (h' : Written inetPton s b n) : a = b ∧ m = n := by
  obtain ⟨addr, ds, rfl, ha, -, hds, rfl⟩ := h
  obtain ⟨addr', ds', heq, hb, -, hds', rfl⟩ := h'
  have hsplit := splitSlash_append (slash_not_mem hds) addr
  rw [heq, splitSlash_append (slash_not_mem hds')] at hsplit
  obtain ⟨rfl, rfl⟩ := Prod.mk.inj (some.inj hsplit)
  exact ⟨some.inj (ha.symm.trans hb), rfl⟩

/-- **What the constructor accepts.** -/
theorem initializeFromString_eq_ok {s : List Char} {net : IPNet w} :
    initializeFromString inetPton s = .ok net ↔ ∃ a n, Written inetPton s a n ∧
      ∃ h : min n (2 ^ 63 - 1) % 256 ≤ w, net = ofAddr a _ h := by
  constructor
  · intro h
    rw [initializeFromString] at h
    cases hsplit : splitSlash s with
    | none => simp [hsplit] at h
    | some e =>
      obtain ⟨addr, ds⟩ := e
      simp only [hsplit] at h
      cases ha : inetPton addr with
      | none => split_ifs at h <;> simp [ha] at h
      | some a =>
        simp only [ha] at h
        split_ifs at h with hnil hdigit hle
        exact ⟨a, _, ⟨addr, ds, eq_append_of_splitSlash hsplit, ha, hnil, by simpa using hdigit,
          rfl⟩, hle, (Except.ok.inj h).symm⟩
  · rintro ⟨a, n, ⟨addr, ds, rfl, ha, hnil, hdigit, rfl⟩, hle, rfl⟩
    rw [initializeFromString, splitSlash_append (slash_not_mem hdigit)]
    simp only [hnil, if_false, hdigit, Bool.true_eq_false, ha]
    exact dif_pos hle

variable {inetNtop}

theorem written_str (htext : ∀ a, inetPton (inetNtop a) = some a) (net : IPNet w)
    (hlt : net.prefixLen < 256) :
    Written inetPton (net.str inetNtop) net.maskedAddr net.prefixLen := by
  have hdigits : ∀ n < 256, Nat.toDigits 10 n ≠ [] ∧ (Nat.toDigits 10 n).all isDigit = true ∧
      decimal (Nat.toDigits 10 n) = n := by
    decide +kernel
  exact ⟨_, _, rfl, htext _, hdigits _ hlt⟩

/-- **The constructor reads what `str` writes**, and of all other texts it is right about
those whose length does not wrap. -/
theorem text_iff (hw : w = 32 ∨ w = 128) (htext : ∀ a, inetPton (inetNtop a) = some a)
    (s : List Char) :
    (∀ net : IPNet w, initializeFromString inetPton (net.str inetNtop) = .ok net) ∧
      ((∀ net, initializeFromString inetPton s = .ok net ↔ ∃ a n, Written inetPton s a n ∧
        ∃ h : n ≤ w, net = ofAddr a n h) ↔ ¬ Wraps inetPton s) := by
  -- a length in range survives the conversion
  have hkeep : ∀ n ≤ w, min n (2 ^ 63 - 1) % 256 = n := by
    intro n hn
    omega
  refine ⟨fun net => ?_, ?_, ?_⟩
  · have hle := net.prefixLen_le
    refine initializeFromString_eq_ok.mpr
      ⟨_, _, written_str htext net (by omega), (hkeep _ hle).trans_le hle, ?_⟩
    simp only [hkeep _ hle, ofAddr, net.masked]
  · rintro h ⟨a, n, hwritten, hlt, hle⟩
    obtain ⟨b, m, hwritten', hm, -⟩ :=
      (h _).mp (initializeFromString_eq_ok.mpr ⟨a, n, hwritten, hle, rfl⟩)
    have hmn := (hwritten.unique hwritten').2
    omega
  · intro hno net
    rw [initializeFromString_eq_ok]
    refine exists_congr fun a => exists_congr fun n => and_congr_right fun hwritten => ?_
    constructor
    · rintro ⟨hle, rfl⟩
      have hn : n ≤ w := Nat.le_of_not_lt fun hlt => hno ⟨a, n, hwritten, hlt, hle⟩
      exact ⟨hn, by simp only [hkeep n hn]⟩
    · rintro ⟨hn, rfl⟩
      exact ⟨(hkeep n hn).trans_le hn, by simp only [hkeep n hn]⟩

/-! ### IPv4 addresses as text -/

/-- A number below 256 without leading zeros. -/
def octet (ds : List Char) : Option Nat :=
  if ds ≠ [] ∧ ds.all isDigit = true ∧ (ds.head? = some '0' → ds.length = 1) ∧ decimal ds < 256
  then some (decimal ds) else none

/-- `inet_pton` for `AF_INET`: four numbers with dots between them. -/
def inetPton4 (s : List Char) : Option (BitVec 32) := do
  let [a, b, c, d] := s.splitOn '.' | none
  pure (.ofNat 32 (((← octet a) * 256 + (← octet b)) * 65536 + (← octet c) * 256 + (← octet d)))

def inetNtop4 (a : BitVec 32) : List Char :=
  ['.'].intercalate ([a.toNat / 16777216, a.toNat / 65536, a.toNat / 256, a.toNat].map
    fun n => Nat.toDigits 10 (n % 256))

theorem inetPton4_inetNtop4 (a : BitVec 32) : inetPton4 (inetNtop4 a) = some a := by
  have hoctet : ∀ n < 256, octet (Nat.toDigits 10 n) = some n ∧ '.' ∉ Nat.toDigits 10 n := by
    decide +kernel
  have hmod : ∀ n, octet (Nat.toDigits 10 (n % 256)) = some (n % 256) := fun n =>
    (hoctet _ (Nat.mod_lt _ (by decide))).1
  have hdot : ∀ n, '.' ∉ Nat.toDigits 10 (n % 256) := fun n =>
    (hoctet _ (Nat.mod_lt _ (by decide))).2
  rw [inetPton4, inetNtop4, splitOn_intercalate _ (by simp [hdot]) (by simp)]
  simp only [map_cons, map_nil, hmod]
  refine congrArg some (BitVec.eq_of_toNat_eq ?_)
  have := a.isLt
  simp only [BitVec.toNat_ofNat]
  omega

/-- `10.1.0.0/16` is read back, and of `10.1.2.3/24` the last eight bits are masked. -/
theorem text_iff_dotted : let net : IPNet 32 := ofAddr 0x0a010000 16 (by decide)
    net.str inetNtop4 = "10.1.0.0/16".toList ∧
    initializeFromString inetPton4 (net.str inetNtop4) = .ok net ∧
    initializeFromString inetPton4 "10.1.2.3/24".toList = .ok (ofAddr 0x0a010200 24 (by decide)) := by
  intro net
  have hwritten : Written inetPton4 "10.1.2.3/24".toList 0x0a010203 24 :=
    ⟨"10.1.2.3".toList, "24".toList, by decide +kernel⟩
  have htext := text_iff (.inl rfl) inetPton4_inetNtop4 "10.1.2.3/24".toList
  refine ⟨by decide +kernel, htext.1 net, (htext.2.mpr ?_ _).mpr ⟨_, _, hwritten, by decide, by decide⟩⟩
  rintro ⟨a, n, h, hlt, -⟩
  have hn := (h.unique hwritten).2
  omega

/-- A length of 264 is one of 8. -/
theorem length_wraps : initializeFromString inetPton4 "10.0.0.0/264".toList
    = .ok (ofAddr 0x0a000000 8 (by decide)) := by
  decide +kernel

end IPNet

end Xorp

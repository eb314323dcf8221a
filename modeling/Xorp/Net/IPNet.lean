/-
Addresses and prefixes.

An address is a bit vector: 32 bits wide for IPv4, 128 for IPv6, and the
development never needs to know which.  `IPNet` is the prefix class of
`libxorp/ipnet.hh`: a base address together with a length, the base address being
masked to that length.  Both invariants are fields, so a prefix with host bits set
cannot be built.

Everything the tables and tries need of prefixes comes from reading one as an
interval of addresses.  The intervals are dyadic, so two of them are nested or
disjoint, and the two halves of an interval are again such intervals.  `lo` and
`size` are that reading, and the second half of the file derives the order facts
from them.
-/
import Mathlib.Data.Nat.Bitwise
import Mathlib.Tactic.Ring

namespace Xorp

open BitVec Bool Nat

variable {w : Nat}

/-! ### Addresses -/

/-- `A::make_prefix`: the netmask with `len` leading ones. -/
def makePrefix (w len : Nat) : BitVec w := BitVec.allOnes w <<< (w - len)

/-- `A::mask_by_prefix_len`. -/
def maskByPrefixLen (a : BitVec w) (len : Nat) : BitVec w := a &&& makePrefix w len

/-- `A::leading_zero_count`. -/
def leadingZeroCount (a : BitVec w) : Nat :=
  if a = 0 then w else w - 1 - a.toNat.log2

/-- The width of the block of addresses a prefix of this length covers. -/
def blockSize (w len : Nat) : Nat := 2 ^ (w - len)

theorem blockSize_pos (w len : Nat) : 0 < blockSize w len := Nat.two_pow_pos _

/-- The block of length `len` an address lies in, counted from zero. -/
def block (a : BitVec w) (len : Nat) : Nat := a.toNat / blockSize w len

variable (a b : BitVec w) (len : Nat)

theorem toNat_mask : (maskByPrefixLen a len).toNat = block a len * blockSize w len := by
  have hmask : maskByPrefixLen a len = (a >>> (w - len)) <<< (w - len) := by
    apply eq_of_getLsbD_eq
    intro i hi
    simp only [maskByPrefixLen, makePrefix, getLsbD_and, getLsbD_shiftLeft,
      getLsbD_allOnes, getLsbD_ushiftRight, hi, decide_true, Bool.true_and]
    by_cases hlt : i < w - len
    · simp [hlt]
    · have hadd : w - len + (i - (w - len)) = i := by omega
      have hsub : i - (w - len) < w := by omega
      simp [hlt, hadd, hsub]
  have hle : a.toNat / 2 ^ (w - len) * 2 ^ (w - len) ≤ a.toNat := Nat.div_mul_le_self _ _
  rw [hmask, toNat_shiftLeft, toNat_ushiftRight, Nat.shiftRight_eq_div_pow,
    Nat.shiftLeft_eq, block, blockSize, Nat.mod_eq_of_lt (by omega)]

theorem mask_eq_iff :
    maskByPrefixLen a len = maskByPrefixLen b len ↔ block a len = block b len := by
  rw [← toNat_inj, toNat_mask a, toNat_mask b]
  exact Nat.mul_left_inj (blockSize_pos w len).ne'

variable {l m : Nat}

/-- A shorter prefix length only coarsens the blocks. -/
theorem block_coarsen (hlm : l ≤ m) (hm : m ≤ w) :
    block a l = block a m / 2 ^ (m - l) := by
  rw [block, block, blockSize, blockSize, Nat.div_div_eq_div_mul, ← pow_add]
  congr 2
  omega

theorem block_eq_of_le {a b : BitVec w} (hlm : l ≤ m) (hm : m ≤ w)
    (h : block a m = block b m) : block a l = block b l := by
  rw [block_coarsen a hlm hm, block_coarsen b hlm hm, h]

/-- Two addresses share a block exactly when their first difference lies beyond it. -/
theorem block_eq_iff_le_leadingZeroCount (hl : l ≤ w) :
    block a l = block b l ↔ l ≤ leadingZeroCount (a ^^^ b) := by
  have hshift : block a l = block b l ↔ (a ^^^ b).toNat < 2 ^ (w - l) := by
    rw [block, block, blockSize, ← Nat.shiftRight_eq_div_pow, ← Nat.shiftRight_eq_div_pow,
      ← Nat.xor_eq_zero_iff, ← Nat.shiftRight_xor_distrib, Nat.shiftRight_eq_div_pow,
      Nat.div_eq_zero_iff, toNat_xor]
    have := Nat.two_pow_pos (w - l)
    omega
  rw [hshift, leadingZeroCount]
  split
  · rename_i hz
    rw [hz]
    simp [hl]
  · rename_i hz
    have hne : (a ^^^ b).toNat ≠ 0 := fun hc => hz (eq_of_toNat_eq (by simpa using hc))
    have hlog : (a ^^^ b).toNat.log2 < w := (Nat.log2_lt hne).mpr (a ^^^ b).isLt
    rw [← Nat.log2_lt hne]
    omega

/-! ### Prefixes -/

/-- `IPNet<A>`: a base address and a prefix length.  The constructor of the source
masks the address and throws on a length above the address width; the two fields
say what it leaves behind. -/
structure IPNet (w : Nat) where
  maskedAddr : BitVec w
  prefixLen : Nat
  prefixLen_le : prefixLen ≤ w
  masked : maskByPrefixLen maskedAddr prefixLen = maskedAddr
deriving DecidableEq

instance : LawfulBEq (IPNet w) := inferInstance

namespace IPNet

theorem mask_mask : maskByPrefixLen (maskByPrefixLen a len) len = maskByPrefixLen a len := by
  rw [maskByPrefixLen, maskByPrefixLen, BitVec.and_assoc, BitVec.and_self]

/-- `IPNet(a, prefix_len)`. -/
def ofAddr (a : BitVec w) (len : Nat) (h : len ≤ w) : IPNet w :=
  ⟨maskByPrefixLen a len, len, h, mask_mask a len⟩

/-- `IPNet()`: the default route `0/0`. -/
def any (w : Nat) : IPNet w := ofAddr 0 0 (Nat.zero_le w)

/-- The host prefix `IPNet(a, a.addr_bitlen())`. -/
def host (a : BitVec w) : IPNet w := ofAddr a w (Nat.le_refl w)

def netmask (n : IPNet w) : BitVec w := makePrefix w n.prefixLen

def topAddr (n : IPNet w) : BitVec w := n.maskedAddr ||| ~~~n.netmask

/-- The last address of the lower half, as `TrieNode::insert` computes it. -/
def midAddr (n : IPNet w) : BitVec w := n.maskedAddr ||| (~~~n.netmask >>> 1)

/-- `IPNet::contains(const A&)`. -/
def containsAddr (n : IPNet w) (a : BitVec w) : Bool :=
  maskByPrefixLen a n.prefixLen == n.maskedAddr

section
variable (n m : IPNet w)

/-- `IPNet::contains(const IPNet&)`. -/
def contains : Bool :=
  if n.prefixLen > m.prefixLen then false
  else if n.prefixLen = m.prefixLen then m.maskedAddr == n.maskedAddr
  else n.containsAddr m.maskedAddr

/-- `IPNet::operator<`: a more specific prefix comes before the ones around it,
disjoint prefixes compare by address. -/
def lt : Bool :=
  if n.contains m then false
  else if m.contains n then true
  else n.maskedAddr < m.maskedAddr

def overlap : Nat :=
  let done := leadingZeroCount (n.maskedAddr ^^^ m.maskedAddr)
  let p := if n.prefixLen < m.prefixLen then n.prefixLen else m.prefixLen
  if done > p then p else done

theorem overlap_eq_min : n.overlap m =
    min (leadingZeroCount (n.maskedAddr ^^^ m.maskedAddr)) (min n.prefixLen m.prefixLen) := by
  by_cases h : n.prefixLen < m.prefixLen <;> simp only [overlap, h, if_true, if_false] <;>
    split <;> omega

theorem overlap_le_left : n.overlap m ≤ n.prefixLen := by
  rw [overlap_eq_min]
  omega

def commonSubnet : IPNet w :=
  ofAddr n.maskedAddr (n.overlap m) (Nat.le_trans (overlap_le_left n m) n.prefixLen_le)

end

/-! ### A prefix as an interval

`lo` and `size` read a prefix as the addresses `lo ≤ a < lo + size`.  `lo` is a
multiple of `size` and `size` is a power of two, which is all that is ever used of
the bits.
-/

/-- The first address of the prefix. -/
def lo (n : IPNet w) : Nat := n.maskedAddr.toNat

/-- How many addresses the prefix covers. -/
def size (n : IPNet w) : Nat := blockSize w n.prefixLen

theorem lo_ofAddr (h : len ≤ w) : (ofAddr a len h).lo = block a len * blockSize w len :=
  toNat_mask a len

@[simp] theorem size_ofAddr (h : len ≤ w) : (ofAddr a len h).size = blockSize w len := rfl

section
variable (n m : IPNet w)

theorem size_pos : 0 < n.size := blockSize_pos _ _

theorem lo_eq : n.lo = block n.maskedAddr n.prefixLen * n.size := by
  rw [lo, ← n.masked, toNat_mask, n.masked, size]

theorem block_eq_lo_div : block n.maskedAddr n.prefixLen = n.lo / n.size := rfl

theorem lo_add_size_le : n.lo + n.size ≤ 2 ^ w := by
  have hpow : 2 ^ w = 2 ^ n.prefixLen * n.size := by
    rw [size, blockSize, ← pow_add, Nat.add_sub_cancel' n.prefixLen_le]
  have hlt : block n.maskedAddr n.prefixLen < 2 ^ n.prefixLen := by
    rw [block, Nat.div_lt_iff_lt_mul (blockSize_pos _ _), ← size, ← hpow]
    exact n.maskedAddr.isLt
  rw [lo_eq, hpow, ← Nat.succ_mul]
  exact Nat.mul_le_mul_right _ hlt

theorem toNat_or_low {b : BitVec w} (hb : b.toNat < n.size) :
    (n.maskedAddr ||| b).toNat = n.lo + b.toNat := by
  have hlo : n.maskedAddr.toNat = 2 ^ (w - n.prefixLen) * block n.maskedAddr n.prefixLen := by
    rw [mul_comm]
    exact n.lo_eq
  rw [toNat_or, hlo, ← two_pow_add_eq_or_of_lt hb, ← hlo, lo]

theorem toNat_hostmask : (~~~n.netmask).toNat = n.size - 1 := by
  have hle : n.size ≤ 2 ^ w := Nat.le_trans (Nat.le_add_left _ _) n.lo_add_size_le
  have hpos := n.size_pos
  have hmask : n.netmask.toNat = 2 ^ w - n.size := by
    have hsplit : (2 ^ w - 1) * n.size = (2 ^ w - n.size) + 2 ^ w * (n.size - 1) := by
      have hmul : 2 ^ w ≤ 2 ^ w * n.size := Nat.le_mul_of_pos_right _ hpos
      rw [Nat.sub_mul, Nat.mul_sub, Nat.mul_one, Nat.one_mul]
      omega
    rw [netmask, makePrefix, toNat_shiftLeft, toNat_allOnes, Nat.shiftLeft_eq,
      ← blockSize, ← size, hsplit, Nat.add_mul_mod_self_left, Nat.mod_eq_of_lt (by omega)]
  rw [toNat_not, hmask]
  omega

theorem toNat_topAddr : n.topAddr.toNat = n.lo + (n.size - 1) := by
  have := n.size_pos
  rw [topAddr, toNat_or_low n (by rw [toNat_hostmask]; omega), toNat_hostmask]

theorem toNat_midAddr : n.midAddr.toNat = n.lo + (n.size - 1) / 2 := by
  have := n.size_pos
  have hhalf : (~~~n.netmask >>> 1).toNat = (n.size - 1) / 2 := by
    rw [toNat_ushiftRight, toNat_hostmask, shiftRight_eq_div_pow, pow_one]
  rw [midAddr, toNat_or_low n (by rw [hhalf]; omega), hhalf]

theorem containsAddr_iff (a : BitVec w) :
    n.containsAddr a = true ↔ n.lo ≤ a.toNat ∧ a.toNat < n.lo + n.size := by
  rw [containsAddr, beq_iff_eq]
  conv_lhs => rhs; rw [← n.masked]
  rw [mask_eq_iff, block_eq_lo_div, block, ← size, Nat.div_eq_iff n.size_pos,
    Nat.div_mul_cancel (by rw [lo_eq]; exact Nat.dvd_mul_left _ _)]
  have := n.size_pos
  omega

/-! ### Nesting -/

theorem size_le_iff : n.size ≤ m.size ↔ m.prefixLen ≤ n.prefixLen := by
  rw [size, size, blockSize, blockSize, Nat.pow_le_pow_iff_right (by omega)]
  have := m.prefixLen_le
  omega

theorem size_lt_iff : n.size < m.size ↔ m.prefixLen < n.prefixLen := by
  rw [← not_le, size_le_iff, not_le]

end

variable {k m n x y : IPNet w}

/-- A prefix is determined by its interval. -/
theorem ext_interval (hlo : n.lo = m.lo) (hsize : n.size = m.size) : n = m := by
  have hlen : n.prefixLen = m.prefixLen :=
    le_antisymm ((size_le_iff m n).mp hsize.ge) ((size_le_iff n m).mp hsize.le)
  obtain ⟨a, l, hl, ha⟩ := n
  obtain ⟨b, k, hk, hb⟩ := m
  have hab : a = b := eq_of_toNat_eq hlo
  subst hab
  subst hlen
  rfl

/-- The larger of two sizes is a multiple of the smaller. -/
theorem exists_size_eq_mul (h : n.size ≤ m.size) : ∃ k, m.size = n.size * 2 ^ k := by
  have hlen := (size_le_iff n m).mp h
  have := n.prefixLen_le
  refine ⟨n.prefixLen - m.prefixLen, ?_⟩
  rw [size, size, blockSize, blockSize, ← pow_add]
  congr 1
  omega

/-- A smaller interval lies inside a larger one, before it, or after it. -/
theorem within_or_apart (h : n.size ≤ m.size) :
    (m.lo ≤ n.lo ∧ n.lo + n.size ≤ m.lo + m.size) ∨ n.lo + n.size ≤ m.lo ∨
      m.lo + m.size ≤ n.lo := by
  obtain ⟨k, hk⟩ := exists_size_eq_mul h
  obtain ⟨q, hq⟩ : ∃ q, n.lo = q * n.size := ⟨_, n.lo_eq⟩
  obtain ⟨r, hr⟩ : ∃ r, m.lo = r * n.size :=
    ⟨block m.maskedAddr m.prefixLen * 2 ^ k, by rw [m.lo_eq, hk]; ring⟩
  have hms : m.lo + m.size = (r + 2 ^ k) * n.size := by rw [hr, hk]; ring
  have hns : n.lo + n.size = (q + 1) * n.size := by rw [hq]; ring
  rw [hms, hns, hq, hr]
  rcases lt_or_ge q r with hqr | hqr
  · exact .inr (.inl (mul_le_mul_right _ hqr))
  · rcases lt_or_ge q (r + 2 ^ k) with hqk | hqk
    · exact .inl ⟨mul_le_mul_right _ hqr, mul_le_mul_right _ hqk⟩
    · exact .inr (.inr (mul_le_mul_right _ hqk))

theorem contains_iff : n.contains m = true ↔ n.lo ≤ m.lo ∧ m.lo + m.size ≤ n.lo + n.size := by
  have hm := m.size_pos
  rw [contains]
  split
  · rename_i hlt
    have := (size_lt_iff n m).mpr hlt
    simp only [false_eq_true, false_iff]
    omega
  · rename_i hle
    have hsize : m.size ≤ n.size := (size_le_iff m n).mpr (Nat.le_of_not_lt hle)
    split
    · rename_i heq
      have hge : n.size ≤ m.size := (size_le_iff n m).mpr heq.ge
      rw [beq_iff_eq, ← toNat_inj]
      show m.lo = n.lo ↔ _
      omega
    · rw [containsAddr_iff]
      show n.lo ≤ m.lo ∧ m.lo < n.lo + n.size ↔ _
      rcases within_or_apart hsize with h | h | h <;> omega

theorem contains_refl : n.contains n = true := by
  rw [contains_iff]
  omega

section
variable (h : n.contains m = true)
include h

theorem contains_trans (h' : m.contains k = true) : n.contains k = true := by
  rw [contains_iff] at *
  omega

theorem contains_antisymm (h' : m.contains n = true) : n = m := by
  rw [contains_iff] at h h'
  exact ext_interval (by omega) (by omega)

theorem prefixLen_lt_of_contains (hne : n ≠ m) : n.prefixLen < m.prefixLen := by
  rw [contains_iff] at h
  refine (size_lt_iff m n).mp ?_
  by_contra hc
  exact hne (ext_interval (by omega) (by omega))

end

/-- Every address of the first prefix lies below every address of the second. -/
def Below (n m : IPNet w) : Prop := n.lo + n.size ≤ m.lo

instance (n m : IPNet w) : Decidable (Below n m) := inferInstanceAs (Decidable (_ ≤ _))

theorem nested_or_disjoint (n m : IPNet w) :
    n.contains m = true ∨ m.contains n = true ∨ n.Below m ∨ m.Below n := by
  simp only [contains_iff, Below]
  rcases le_total n.size m.size with h | h
  · rcases within_or_apart h with h | h | h <;> omega
  · rcases within_or_apart h with h | h | h <;> omega

/-- Two prefixes around a common one are nested. -/
theorem contains_or_contains (hn : n.contains k = true) (hm : m.contains k = true) :
    n.contains m = true ∨ m.contains n = true := by
  have hk := k.size_pos
  rw [contains_iff] at hn hm
  rcases nested_or_disjoint n m with h | h | h | h
  · exact .inl h
  · exact .inr h
  · simp only [Below] at h; omega
  · simp only [Below] at h; omega

theorem size_host : (host a).size = 1 := by
  rw [host, size_ofAddr, blockSize, Nat.sub_self, Nat.pow_zero]

theorem lo_host : (host a).lo = a.toNat := by
  rw [host, lo_ofAddr, block, blockSize, Nat.sub_self, Nat.pow_zero, Nat.div_one, Nat.mul_one]

theorem containsAddr_eq_contains_host (a : BitVec w) : n.containsAddr a = n.contains (host a) := by
  rw [Bool.eq_iff_iff, containsAddr_iff, contains_iff, size_host, lo_host]
  omega

theorem any_contains : (any w).contains n = true := by
  have hlo : (any w).lo = 0 := by simp [any, lo_ofAddr, block]
  have hsize : (any w).size = 2 ^ w := by simp [any, blockSize]
  rw [contains_iff, hlo, hsize]
  exact ⟨zero_le _, by simpa using n.lo_add_size_le⟩

/-! ### Halves

A trie hangs a child from the half of its parent's key the child lies in.  The
source tests the half against the midpoint address; on intervals it is the
comparison with `lo + size / 2`.
-/

/-- `m` lies strictly inside `n`, in the half `TrieNode` calls left. -/
def InLeft (n m : IPNet w) : Prop := n.contains m = true ∧ n ≠ m ∧ m.topAddr ≤ n.midAddr

/-- `m` lies strictly inside `n`, in the half `TrieNode` calls right. -/
def InRight (n m : IPNet w) : Prop := n.contains m = true ∧ n ≠ m ∧ n.midAddr < m.maskedAddr

instance (n m : IPNet w) : Decidable (InLeft n m) := inferInstanceAs (Decidable (_ ∧ _ ∧ _))

instance (n m : IPNet w) : Decidable (InRight n m) := inferInstanceAs (Decidable (_ ∧ _ ∧ _))

/-- A prefix that is not a single address splits into two equal halves. -/
theorem even_size_of_strict (h : n.contains m = true) (hne : n ≠ m) :
    ∃ k, n.size = 2 * k ∧ m.size ≤ k ∧ ∃ q, m.size * q = k := by
  have hlt : m.size < n.size := (size_lt_iff m n).mpr (prefixLen_lt_of_contains h hne)
  obtain ⟨k, hk⟩ := exists_size_eq_mul hlt.le
  cases k with
  | zero => rw [hk] at hlt; simp at hlt
  | succ k =>
    refine ⟨m.size * 2 ^ k, by rw [hk]; ring, ?_, ⟨2 ^ k, rfl⟩⟩
    exact Nat.le_mul_of_pos_right _ (Nat.two_pow_pos k)

theorem inLeft_iff : n.InLeft m ↔ n.lo ≤ m.lo ∧ 2 * (m.lo + m.size) ≤ 2 * n.lo + n.size := by
  have hm := m.size_pos
  rw [InLeft, le_def, toNat_topAddr, toNat_midAddr]
  constructor
  · rintro ⟨hc, hne, hmid⟩
    obtain ⟨k, hk, -⟩ := even_size_of_strict hc hne
    rw [contains_iff] at hc
    omega
  · rintro ⟨hlo, hhalf⟩
    refine ⟨contains_iff.mpr (by omega), ?_, by omega⟩
    rintro rfl
    omega

theorem inRight_iff :
    n.InRight m ↔ 2 * n.lo + n.size ≤ 2 * m.lo ∧ m.lo + m.size ≤ n.lo + n.size := by
  have hn := n.size_pos
  rw [InRight, lt_def, toNat_midAddr]
  constructor
  · rintro ⟨hc, hne, hmid⟩
    rw [contains_iff] at hc
    change _ < m.lo at hmid
    omega
  · rintro ⟨hhalf, hhi⟩
    refine ⟨contains_iff.mpr (by omega), ?_, ?_⟩
    · rintro rfl
      omega
    · change _ < m.lo
      omega

/-- What lies strictly inside a prefix lies in one of its halves. -/
theorem inLeft_or_inRight (h : n.contains m = true) (hne : n ≠ m) : n.InLeft m ∨ n.InRight m := by
  obtain ⟨k, hk, hmk, q, hq⟩ := even_size_of_strict h hne
  rw [inLeft_iff, inRight_iff]
  rw [contains_iff] at h
  -- `m` against the lower half, whose first address and size are `n.lo` and `k`.
  obtain ⟨r, hr⟩ : ∃ r, m.lo = r * m.size := ⟨_, m.lo_eq⟩
  obtain ⟨t, ht⟩ : ∃ t, n.lo + k = t * m.size :=
    ⟨block n.maskedAddr n.prefixLen * (2 * q) + q, by rw [n.lo_eq, hk, ← hq]; ring⟩
  rcases Nat.lt_or_ge r t with hrt | hrt
  · have := Nat.mul_le_mul_right m.size hrt
    have hsucc : r.succ * m.size = m.lo + m.size := by rw [Nat.succ_mul, hr]
    omega
  · have := Nat.mul_le_mul_right m.size hrt
    omega

/-! The source's own tests, on boundary and midpoint addresses. -/

theorem topAddr_lt_iff_below (n m : IPNet w) : n.topAddr < m.maskedAddr ↔ n.Below m := by
  have := n.size_pos
  rw [lt_def, toNat_topAddr, Below]
  show n.lo + (n.size - 1) < m.lo ↔ _
  omega

theorem inLeft_iff_addr (hne : n ≠ m) :
    (n.maskedAddr ≤ m.maskedAddr ∧ m.topAddr ≤ n.midAddr) ↔ n.InLeft m := by
  have hn := n.size_pos
  simp only [InLeft, contains_iff, le_def, toNat_topAddr, toNat_midAddr]
  show (n.lo ≤ m.lo ∧ _) ↔ _
  constructor
  · intro h
    exact ⟨by omega, hne, by omega⟩
  · intro h
    omega

theorem inRight_iff_addr (hne : n ≠ m) :
    (n.midAddr < m.maskedAddr ∧ m.topAddr ≤ n.topAddr) ↔ n.InRight m := by
  have hm := m.size_pos
  simp only [InRight, contains_iff, le_def, lt_def, toNat_topAddr, toNat_midAddr]
  show (_ < m.lo ∧ _) ↔ _ ∧ _ ∧ _ < m.lo
  constructor
  · intro h
    exact ⟨by omega, hne, by omega⟩
  · intro h
    omega

theorem InLeft.contains (h : n.InLeft m) : n.contains m = true := h.1

theorem InRight.contains (h : n.InRight m) : n.contains m = true := h.1

theorem InLeft.ne (h : n.InLeft m) : n ≠ m := h.2.1

theorem InRight.ne (h : n.InRight m) : n ≠ m := h.2.1

theorem InLeft.of_contains (h : n.InLeft m) (hk : m.contains k = true) : n.InLeft k := by
  rw [inLeft_iff] at *
  rw [contains_iff] at hk
  omega

theorem InRight.of_contains (h : n.InRight m) (hk : m.contains k = true) : n.InRight k := by
  rw [inRight_iff] at *
  rw [contains_iff] at hk
  omega

/-- The left half lies below the right half. -/
theorem InLeft.below (h : n.InLeft m) (h' : n.InRight k) : m.Below k := by
  rw [inLeft_iff] at h
  rw [inRight_iff] at h'
  rw [Below]
  omega

theorem Below.not_contains (h : n.Below m) : n.contains m = false := by
  have := m.size_pos
  rw [eq_false_iff]
  intro hc
  rw [contains_iff] at hc
  rw [Below] at h
  omega

theorem Below.not_contains' (h : n.Below m) : m.contains n = false := by
  have := n.size_pos
  rw [eq_false_iff]
  intro hc
  rw [contains_iff] at hc
  rw [Below] at h
  omega

/-! ### The common subnet of two disjoint prefixes -/

theorem lo_mem_of_block (hn : n.prefixLen ≤ l) (hl : l ≤ w)
    (hc : block m.maskedAddr l = block n.maskedAddr l) :
    n.lo ≤ m.maskedAddr.toNat ∧ m.maskedAddr.toNat < n.lo + n.size := by
  rw [← containsAddr_iff, containsAddr, beq_iff_eq]
  conv_rhs => rw [← n.masked]
  rw [mask_eq_iff]
  exact block_eq_of_le hn hl hc

theorem block_ne_of_below (h : n.Below m) (hn : n.prefixLen ≤ l) (hl : l ≤ w) :
    block n.maskedAddr l ≠ block m.maskedAddr l := by
  intro hc
  have hmem := lo_mem_of_block hn hl hc.symm
  rw [Below] at h
  change _ ∧ m.lo < _ at hmem
  omega

theorem block_ne_of_below' (h : n.Below m) (hm : m.prefixLen ≤ l) (hl : l ≤ w) :
    block n.maskedAddr l ≠ block m.maskedAddr l := by
  intro hc
  have hmem := lo_mem_of_block hm hl hc
  have := n.size_pos
  rw [Below] at h
  change m.lo ≤ n.lo ∧ _ at hmem
  omega

/-- The length of the common subnet of disjoint prefixes is where they first differ. -/
theorem overlap_of_below (h : n.Below m) :
    n.overlap m = leadingZeroCount (n.maskedAddr ^^^ m.maskedAddr) ∧
      n.overlap m < n.prefixLen ∧ n.overlap m < m.prefixLen := by
  have hn : leadingZeroCount (n.maskedAddr ^^^ m.maskedAddr) < n.prefixLen := by
    rw [← not_le, ← block_eq_iff_le_leadingZeroCount _ _ n.prefixLen_le]
    exact block_ne_of_below h (le_refl _) n.prefixLen_le
  have hm : leadingZeroCount (n.maskedAddr ^^^ m.maskedAddr) < m.prefixLen := by
    rw [← not_le, ← block_eq_iff_le_leadingZeroCount _ _ m.prefixLen_le]
    exact block_ne_of_below' h (le_refl _) m.prefixLen_le
  have heq : n.overlap m = leadingZeroCount (n.maskedAddr ^^^ m.maskedAddr) := by
    rw [overlap_eq_min]
    omega
  rw [heq]
  exact ⟨rfl, hn, hm⟩

theorem contains_of_block (hlen : k.prefixLen < n.prefixLen)
    (h : block n.maskedAddr k.prefixLen = block k.maskedAddr k.prefixLen) :
    k.contains n = true := by
  rw [contains, if_neg (by omega), if_neg (by omega), containsAddr, beq_iff_eq]
  conv_rhs => rw [← k.masked]
  exact (mask_eq_iff _ _ _).mpr h

theorem size_eq_of_contains (h : k.contains n = true) (hne : k ≠ n) :
    k.size = 2 * blockSize w (k.prefixLen + 1) := by
  have hlen := prefixLen_lt_of_contains h hne
  have hle := n.prefixLen_le
  rw [size, blockSize, blockSize, ← pow_succ']
  congr 1
  omega

/-- Which half a prefix lies in is the next bit of its address. -/
theorem block_succ_of_inLeft (h : k.InLeft n) :
    block n.maskedAddr (k.prefixLen + 1) = 2 * block k.maskedAddr k.prefixLen := by
  have hhalf := size_eq_of_contains h.contains h.ne
  rw [inLeft_iff] at h
  have hlo := k.lo_eq
  have := n.size_pos
  rw [block, Nat.div_eq_iff (blockSize_pos _ _)]
  change _ ≤ n.lo ∧ n.lo ≤ _
  have hmul : 2 * block k.maskedAddr k.prefixLen * blockSize w (k.prefixLen + 1) = k.lo := by
    rw [hlo, hhalf]; ring
  omega

theorem block_succ_of_inRight (h : k.InRight n) :
    block n.maskedAddr (k.prefixLen + 1) = 2 * block k.maskedAddr k.prefixLen + 1 := by
  have hhalf := size_eq_of_contains h.contains h.ne
  rw [inRight_iff] at h
  have hlo := k.lo_eq
  have := n.size_pos
  rw [block, Nat.div_eq_iff (blockSize_pos _ _)]
  change _ ≤ n.lo ∧ n.lo ≤ _
  have hmul : (2 * block k.maskedAddr k.prefixLen + 1) * blockSize w (k.prefixLen + 1)
      = k.lo + blockSize w (k.prefixLen + 1) := by
    rw [hlo, hhalf]; ring
  omega

/-- **The common subnet of two disjoint prefixes has them in its two halves**, the
lower one on the left. -/
theorem commonSubnet_halves (h : n.Below m) :
    (n.commonSubnet m).InLeft n ∧ (n.commonSubnet m).InRight m := by
  obtain ⟨hlzc, hn, hm⟩ := overlap_of_below h
  set k := n.commonSubnet m with hk
  have hklen : k.prefixLen = n.overlap m := rfl
  have hkblock : block k.maskedAddr k.prefixLen = block n.maskedAddr k.prefixLen := by
    rw [← mask_eq_iff, k.masked]
    rfl
  have hnm : ∀ l ≤ w, block n.maskedAddr l = block m.maskedAddr l ↔ l ≤ n.overlap m := by
    intro l hl
    rw [hlzc]
    exact block_eq_iff_le_leadingZeroCount _ _ hl
  have hle := n.prefixLen_le
  have hcn : k.contains n = true := contains_of_block (by omega) hkblock.symm
  have hcm : k.contains m = true := by
    refine contains_of_block (by omega) ?_
    rw [hkblock]
    exact ((hnm _ (by omega)).mpr (by omega)).symm
  have hnek : k ≠ n := fun hc => absurd (congrArg prefixLen hc) (by omega)
  have hmek : k ≠ m := fun hc => absurd (congrArg prefixLen hc) (by omega)
  have hdiff : block n.maskedAddr (k.prefixLen + 1) ≠ block m.maskedAddr (k.prefixLen + 1) := by
    intro hc
    have := (hnm _ (by omega)).mp hc
    omega
  have hms := m.size_pos
  rcases inLeft_or_inRight hcn hnek with hnl | hnr <;>
    rcases inLeft_or_inRight hcm hmek with hml | hmr
  · exact absurd ((block_succ_of_inLeft hnl).trans (block_succ_of_inLeft hml).symm) hdiff
  · exact ⟨hnl, hmr⟩
  · have := hml.below hnr
    rw [Below] at h this
    omega
  · exact absurd ((block_succ_of_inRight hnr).trans (block_succ_of_inRight hmr).symm) hdiff

theorem InLeft.not_inRight (h : n.InLeft m) : ¬ n.InRight m := by
  intro h'
  have := h.below h'
  have := m.size_pos
  rw [Below] at *
  omega

/-- Around two prefixes of one half, the common subnet stays in that half. -/
theorem contains_commonSubnet (hx : n.contains x = true) (hy : n.contains y = true)
    (h : x.Below y) :
    n.contains (x.commonSubnet y) = true := by
  obtain ⟨hl, hr⟩ := commonSubnet_halves h
  rcases contains_or_contains hx hl.contains with hc | hc
  · exact hc
  · by_cases heq : x.commonSubnet y = n
    · rw [heq]; exact contains_refl
    · rcases inLeft_or_inRight hc heq with hc | hc
      · exact absurd hr (hc.of_contains hy).not_inRight
      · exact absurd (hc.of_contains hx) hl.not_inRight

theorem InLeft.commonSubnet (hx : n.InLeft x) (hy : n.InLeft y) (h : x.Below y) :
    n.InLeft (x.commonSubnet y) := by
  obtain ⟨hl, hr⟩ := commonSubnet_halves h
  have hne : n ≠ x.commonSubnet y := fun hc => absurd (hc ▸ hr) hy.not_inRight
  rcases inLeft_or_inRight (contains_commonSubnet hx.contains hy.contains h) hne with hc | hc
  · exact hc
  · exact absurd (hc.of_contains hl.contains) hx.not_inRight

theorem InRight.commonSubnet (hx : n.InRight x) (hy : n.InRight y) (h : x.Below y) :
    n.InRight (x.commonSubnet y) := by
  obtain ⟨hl, hr⟩ := commonSubnet_halves h
  have hne : n ≠ x.commonSubnet y := fun hc => absurd hx (hc ▸ hl).not_inRight
  rcases inLeft_or_inRight (contains_commonSubnet hx.contains hy.contains h) hne with hc | hc
  · exact absurd hx (hc.of_contains hl.contains).not_inRight
  · exact hc

theorem commonSubnet_comm : n.commonSubnet m = m.commonSubnet n := by
  have hover : n.overlap m = m.overlap n := by
    rw [overlap_eq_min, overlap_eq_min, BitVec.xor_comm m.maskedAddr, min_comm m.prefixLen]
  have hblock : block n.maskedAddr (n.overlap m) = block m.maskedAddr (n.overlap m) := by
    have hle := le_trans (overlap_le_left n m) n.prefixLen_le
    rw [block_eq_iff_le_leadingZeroCount _ _ hle, overlap_eq_min]
    exact min_le_left _ _
  simp only [commonSubnet, ofAddr, ← hover, (mask_eq_iff _ _ _).mpr hblock]

/-! ### The order of prefixes

`operator<` is the order a post-order walk of a trie meets its keys in: by the last
address, and for prefixes that end together, the smaller first.
-/

theorem lt_iff : n.lt m = true ↔ n.lo + n.size < m.lo + m.size ∨
      (n.lo + n.size = m.lo + m.size ∧ n.size < m.size) := by
  have hn := n.size_pos
  have hm := m.size_pos
  rw [lt]
  split
  · rename_i hc
    rw [contains_iff] at hc
    simp only [false_eq_true, false_iff]
    omega
  · rename_i hc
    split
    · rename_i hc'
      rw [contains_iff] at hc hc'
      simp only [true_iff]
      omega
    · rename_i hc'
      rw [decide_eq_true_eq, lt_def]
      change n.lo < m.lo ↔ _
      rcases nested_or_disjoint n m with h | h | h | h
      · contradiction
      · contradiction
      · rw [Below] at h; omega
      · rw [Below] at h; omega

theorem lt_irrefl (n : IPNet w) : n.lt n = false := by
  rw [eq_false_iff]
  intro h
  rw [lt_iff] at h
  omega

theorem lt_trans (h : n.lt m = true) (h' : m.lt k = true) : n.lt k = true := by
  rw [lt_iff] at *
  omega

theorem lt_trichotomy (n m : IPNet w) : n.lt m = true ∨ n = m ∨ m.lt n = true := by
  rw [lt_iff, lt_iff]
  by_cases h : n.lo = m.lo ∧ n.size = m.size
  · exact .inr (.inl (ext_interval h.1 h.2))
  · omega

theorem lt_asymm (h : n.lt m = true) : m.lt n = false := by
  rw [eq_false_iff]
  intro h'
  rw [lt_iff] at *
  omega

/-- A more specific prefix comes before the ones around it. -/
theorem lt_of_strict (h : n.contains m = true) (hne : n ≠ m) : m.lt n = true := by
  have hsize := (size_lt_iff m n).mpr (prefixLen_lt_of_contains h hne)
  rw [contains_iff] at h
  rw [lt_iff]
  omega

theorem Below.lt (h : n.Below m) : n.lt m = true := by
  have := m.size_pos
  rw [Below] at h
  rw [lt_iff]
  omega

/-- Prefixes without a common address lie one below the other. -/
theorem below_or_below (h : ∀ a, ¬ (n.containsAddr a = true ∧ m.containsAddr a = true)) :
    n.Below m ∨ m.Below n := by
  have hn := h n.maskedAddr
  have hm := h m.maskedAddr
  have hnlo : n.maskedAddr.toNat = n.lo := rfl
  have hmlo : m.maskedAddr.toNat = m.lo := rfl
  have := n.size_pos
  have := m.size_pos
  rw [containsAddr_iff, containsAddr_iff] at hn hm
  rcases nested_or_disjoint n m with hc | hc | hb
  · rw [contains_iff] at hc
    omega
  · rw [contains_iff] at hc
    omega
  · exact hb

/-- **`operator<` is a strict total order** that puts a prefix before those around it and
disjoint prefixes in the order of their addresses. -/
theorem lt_total_order (w : Nat) : (∀ x : IPNet w, x.lt x = false) ∧
    (∀ x y z : IPNet w, x.lt y = true → y.lt z = true → x.lt z = true) ∧
    (∀ x y : IPNet w, x.lt y = true ∨ x = y ∨ y.lt x = true) ∧
    (∀ x y : IPNet w, y.contains x = true → y ≠ x → x.lt y = true) ∧
    ∀ x y : IPNet w, (∀ a, ¬ (x.containsAddr a = true ∧ y.containsAddr a = true)) →
      (x.lt y = true ↔ x.maskedAddr < y.maskedAddr) := by
  refine ⟨lt_irrefl, fun _ _ _ => lt_trans, lt_trichotomy, fun _ _ => lt_of_strict, ?_⟩
  intro x y hdisj
  have hx := x.size_pos
  have hy := y.size_pos
  rw [lt_iff, lt_def]
  show _ ↔ x.lo < y.lo
  rcases below_or_below hdisj with hb | hb
  · rw [Below] at hb
    omega
  · rw [Below] at hb
    omega

end IPNet

end Xorp

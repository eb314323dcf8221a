/-
Which RP is selected.

Routers have to agree on the RP of a group, so the rule is an order on the RPs whose prefix contains
the group: the length of the prefix, the priority, a hash, the address.  Two different entries of a
table always differ in it, because `add_rp` keeps one entry for an RP and a prefix, and prefixes of
one length that contain the group are equal.  So `rpFind` finds the best RP, in any order of the
table, whenever its comparison computes that order.

It does so up to two things.  The hash of two RPs of one rank is computed from the group address
masked to the hash mask length, and a length that is longer than the address throws.  And the words
are read in the byte order of the host, so that a little endian host computes another hash.
-/
import Xorp.Pim.Rp

namespace Xorp.Pim

open Linked Select List BitVec Option

variable {f : Family} {host : Host} {g : Addr f} {r s t : PimRp f} {T T' : List (PimRp f)}

/-! ### The rule -/

/-- An address as a number: for IPv6 the exclusive or of its four words. -/
def number : (f : Family) → Addr f → Nat
  | .inet, a => a.toNat
  | .inet6, a => a.toNat / 2 ^ 96 ^^^ a.toNat / 2 ^ 64 % 2 ^ 32 ^^^ a.toNat / 2 ^ 32 % 2 ^ 32 ^^^
      a.toNat % 2 ^ 32

/-- The hash of a masked group address and an RP address. -/
def hash (group rp : Nat) : Nat :=
  (1103515245 * ((1103515245 * group + 12345) ^^^ rp) + 12345) % 2 ^ 31

/-- The hash of an RP for a group, as all routers should compute it. -/
def hashOf (g : Addr f) (r : PimRp f) : Nat :=
  hash (number f (maskByPrefixLen g r.hashMaskLen)) (number f r.rpAddr)

/-- The two RPs are told apart by their hash or address only. -/
structure SameRank (r s : PimRp f) : Prop where
  prefixLen : r.groupPrefix.prefixLen = s.groupPrefix.prefixLen
  priority : r.rpPriority = s.rpPriority

/-- The RP with the longer prefix, then with the lower priority, then with the higher hash, then with
the higher address. -/
def Better (hash : PimRp f → Nat) (r s : PimRp f) : Prop :=
  s.groupPrefix.prefixLen < r.groupPrefix.prefixLen ∨
    s.groupPrefix.prefixLen = r.groupPrefix.prefixLen ∧
      (r.rpPriority < s.rpPriority ∨ r.rpPriority = s.rpPriority ∧
        (hash s < hash r ∨ hash s = hash r ∧ s.rpAddr < r.rpAddr))

instance (hash : PimRp f → Nat) (r s : PimRp f) : Decidable (Better hash r s) :=
  inferInstanceAs (Decidable (_ ∨ _))

/-- The RPs for a group. -/
def candidates (g : Addr f) (T : List (PimRp f)) : List (PimRp f) :=
  T.filter fun r => r.groupPrefix.containsAddr g

/-- The RP that all routers should choose, and none if no prefix contains the group. -/
def Chosen (g : Addr f) (T : List (PimRp f)) : Option (PimRp f) → Prop :=
  IsBest (Better (hashOf g)) (candidates g T)

variable {h : PimRp f → Nat}

theorem Better.trans (hrs : Better h r s) (hst : Better h s t) : Better h r t := by
  unfold Better at *
  simp only [lt_def, Fin.lt_def, Fin.ext_iff] at *
  omega

theorem Better.asymm (hrs : Better h r s) : ¬ Better h s r := by
  unfold Better at *
  simp only [lt_def, Fin.lt_def, Fin.ext_iff] at *
  omega

/-- Only an RP with the same prefix length, priority and address is neither better nor worse. -/
theorem better_or_better (hne : ¬ (r.groupPrefix.prefixLen = s.groupPrefix.prefixLen ∧
    r.rpAddr = s.rpAddr)) : Better h r s ∨ Better h s r := by
  unfold Better
  simp only [lt_def, Fin.lt_def, Fin.ext_iff, ← toNat_inj] at *
  omega

/-! ### The hash of words is the hash of numbers -/

theorem toNat_rpHashValueDerived (group rp : BitVec 32) :
    (rpHashValueDerived group rp).toNat = hash group.toNat rp.toNat := by
  unfold rpHashValueDerived hash seed1 seed2
  simp only [toNat_umod, toNat_add, toNat_mul, toNat_xor,
    toNat_ofNat]
  have hxor : (1103515245 * group.toNat % 2 ^ 32 + 12345) % 2 ^ 32 ^^^ rp.toNat =
      ((1103515245 * group.toNat + 12345) ^^^ rp.toNat) % 2 ^ 32 := by
    rw [Nat.xor_mod_two_pow, Nat.mod_add_mod, Nat.mod_eq_of_lt rp.isLt]
  norm_num only at hxor ⊢
  omega

/-- On a big endian host the words are the numbers. -/
theorem toNat_derivedAddr_big (a : Addr f) : (derivedAddr .big a).toNat = number f a := by
  cases f with
  | inet =>
    show (0#32 ^^^ a.extractLsb' 0 32).toNat = a.toNat
    have hlt : a.toNat < 2 ^ 32 := a.isLt
    simp only [toNat_xor, extractLsb'_toNat, Nat.shiftRight_zero,
      toNat_ofNat, Nat.mod_eq_of_lt hlt]
    simp
  | inet6 =>
    show (0#32 ^^^ a.extractLsb' 96 32 ^^^ a.extractLsb' 64 32 ^^^ a.extractLsb' 32 32 ^^^
      a.extractLsb' 0 32).toNat = _
    have hlt : a.toNat < 2 ^ 128 := a.isLt
    have htop : a.toNat / 2 ^ 96 % 2 ^ 32 = a.toNat / 2 ^ 96 := by omega
    simp only [toNat_xor, extractLsb'_toNat, Nat.shiftRight_eq_div_pow,
      toNat_ofNat, htop, number]
    simp

/-- The hash of an RP for a group, as the code computes it. -/
def hashWords (host : Host) (g : Addr f) (r : PimRp f) : Nat :=
  (rpHashValueDerived (derivedAddr host (maskByPrefixLen g r.hashMaskLen))
    (derivedAddr host r.rpAddr)).toNat

theorem hashWords_big : hashWords .big g = hashOf g := by
  funext r
  unfold hashWords hashOf
  rw [toNat_rpHashValueDerived, toNat_derivedAddr_big, toNat_derivedAddr_big]

/-! ### The comparison -/

theorem compareHash_left {x y : BitVec 32}
    (h : y.toNat < x.toNat ∨ y.toNat = x.toNat ∧ s.rpAddr < r.rpAddr) :
    compareHash r s x y = r := by
  unfold compareHash
  simp only [lt_def] at *
  split_ifs <;> first | rfl | omega

theorem compareHash_right {x y : BitVec 32}
    (h : x.toNat < y.toNat ∨ x.toNat = y.toNat ∧ r.rpAddr < s.rpAddr) :
    compareHash r s x y = s := by
  unfold compareHash
  simp only [lt_def] at *
  split_ifs <;> first | rfl | omega

/-- Two RPs of one rank: what is left of the order. -/
theorem SameRank.better_iff (hrank : SameRank r s) :
    Better h r s ↔ h s < h r ∨ h s = h r ∧ s.rpAddr < r.rpAddr := by
  unfold Better
  rw [hrank.prefixLen, hrank.priority]
  simp

theorem SameRank.symm (hrank : SameRank r s) : SameRank s r :=
  ⟨hrank.prefixLen.symm, hrank.priority.symm⟩

/-- What the rank says, the comparison says first. -/
theorem compareRp_better (hr : r.method ≠ .unknown) (hs : s.method ≠ .unknown)
    (hfit : SameRank r s → r.hashMaskLen ≤ f.bits ∧ s.hashMaskLen ≤ f.bits) :
    (Better (hashWords host g) r s → compareRp host g r s = .ok r) ∧
      (Better (hashWords host g) s r → compareRp host g r s = .ok s) := by
  unfold compareRp
  split_ifs with hlen hlen' hmethod hpri hpri'
  · refine ⟨fun _ => rfl, fun h => ?_⟩
    exact absurd h (Better.asymm (.inl hlen))
  · refine ⟨fun h => ?_, fun _ => rfl⟩
    exact absurd h (Better.asymm (.inl hlen'))
  · simp [hr, hs] at hmethod
  · have heq : s.groupPrefix.prefixLen = r.groupPrefix.prefixLen := by omega
    refine ⟨fun _ => rfl, fun h => ?_⟩
    exact absurd h (Better.asymm (.inr ⟨heq, .inl hpri⟩))
  · have heq : r.groupPrefix.prefixLen = s.groupPrefix.prefixLen := by omega
    refine ⟨fun h => ?_, fun _ => rfl⟩
    exact absurd h (Better.asymm (.inr ⟨heq, .inl hpri'⟩))
  · have heq : r.groupPrefix.prefixLen = s.groupPrefix.prefixLen := by omega
    have hpeq : r.rpPriority = s.rpPriority := by
      omega
    obtain ⟨hrlen, hslen⟩ := hfit ⟨heq, hpeq⟩
    have hmask : groupMaskedAddr g r.hashMaskLen = .ok (maskByPrefixLen g r.hashMaskLen) :=
      if_neg (by omega)
    have hmask' : groupMaskedAddr g s.hashMaskLen = .ok (maskByPrefixLen g s.hashMaskLen) :=
      if_neg (by omega)
    rw [hmask, hmask']
    dsimp only [bind, Except.bind]
    have hrank : SameRank r s := ⟨heq, hpeq⟩
    constructor
    · intro hbetter
      rw [compareHash_left (hrank.better_iff.mp hbetter)]
    · intro hbetter
      rw [compareHash_right (hrank.symm.better_iff.mp hbetter)]

/-- A hash mask length that is too long throws, once the hash is needed. -/
theorem compareRp_error (hr : r.method ≠ .unknown) (hs : s.method ≠ .unknown)
    (hrank : SameRank r s) (hlong : f.bits < r.hashMaskLen) :
    compareRp host g r s = .error (.invalidNetmaskLength r.hashMaskLen) := by
  have hmask : groupMaskedAddr g r.hashMaskLen =
      .error (.invalidNetmaskLength r.hashMaskLen) := if_pos hlong
  unfold compareRp
  rw [hrank.prefixLen, hrank.priority, hmask]
  simp [hr, hs]

/-! ### The loop -/

/-- What an entry of the table is for. -/
def key (r : PimRp f) : Addr f × IPNet f.bits := (r.rpAddr, r.groupPrefix)

/-- What `add_rp` and `delete_rp` keep: one entry for an RP and a prefix, learned in a known way. -/
structure Wf (T : List (PimRp f)) : Prop where
  distinct : (T.map key).Nodup
  known : ∀ r ∈ T, r.method ≠ .unknown

theorem rpFind_eq_select (hT : ∀ r ∈ T, r.method ≠ .unknown) :
    rpFind host g T = select (compareRp host g) (candidates g T) := by
  unfold rpFind select
  -- the rounds are the same from any best RP on
  generalize (none : Option (PimRp f)) = best
  induction T generalizing best with
  | nil => rfl
  | cons r T ih =>
    have ih := ih fun s hs => hT s (mem_cons_of_mem _ hs)
    have hr := hT r mem_cons_self
    unfold candidates at ih ⊢
    rw [foldlM_cons, filter_cons]
    cases hin : r.groupPrefix.containsAddr g with
    | false =>
      have hnext : findNext host g best r = .ok best := by
        unfold findNext
        simp [hin]
      rw [hnext]
      exact ih best
    | true =>
      have hnext : findNext host g best r = Select.next (compareRp host g) best r := by
        unfold findNext Select.next
        simp only [hin, Bool.not_true, Bool.false_eq_true, if_false, if_neg hr]
        cases best <;> rfl
      congr 1
      funext best
      exact ih best

theorem mem_candidates : r ∈ candidates g T ↔ r ∈ T ∧ r.groupPrefix.containsAddr g = true := by
  simp [candidates]

/-- Two prefixes of one length that contain the group are equal. -/
theorem groupPrefix_eq (hr : r.groupPrefix.containsAddr g = true)
    (hs : s.groupPrefix.containsAddr g = true)
    (hlen : r.groupPrefix.prefixLen = s.groupPrefix.prefixLen) : r.groupPrefix = s.groupPrefix := by
  unfold IPNet.containsAddr at hr hs
  rw [beq_iff_eq] at hr hs
  rw [IPNet.mk.injEq]
  rw [hlen, hs] at hr
  exact ⟨hr.symm, hlen⟩

theorem Wf.nodup (hT : Wf T) : T.Nodup := List.Nodup.of_map key hT.distinct

/-- The hash mask lengths of RPs that have to be told apart by their hash are not longer than the
address. -/
def MasksFit (g : Addr f) (T : List (PimRp f)) : Prop :=
  ∀ r ∈ candidates g T, ∀ s ∈ candidates g T, r ≠ s → SameRank r s → r.hashMaskLen ≤ f.bits

/-- When no hash mask length is in the way, the comparison computes the order with the hash of the
words. -/
theorem Wf.decides (hT : Wf T) (hfit : MasksFit g T) :
    Decides (compareRp host g) (Better (hashWords host g)) (candidates g T) := by
  intro r hr s hs hne
  obtain ⟨hrT, hrg⟩ := mem_candidates.mp hr
  obtain ⟨hsT, hsg⟩ := mem_candidates.mp hs
  obtain ⟨hleft, hright⟩ := compareRp_better (hT.known r hrT) (hT.known s hsT)
    fun hrank => ⟨hfit r hr s hs hne hrank, hfit s hs r hr hne.symm hrank.symm⟩
  have htotal : Better (hashWords host g) r s ∨ Better (hashWords host g) s r := by
    refine better_or_better fun ⟨hlen, haddr⟩ => hne ?_
    exact inj_on_of_nodup_map hT.distinct hrT hsT (Prod.ext haddr (groupPrefix_eq hrg hsg hlen))
  rcases htotal with hrs | hsr
  · exact .inl ⟨hrs, hleft hrs⟩
  · exact .inr ⟨hsr, hright hsr⟩

theorem Wf.rpFind (hT : Wf T) (host : Host) (hfit : MasksFit g T) :
    ∃ o, Pim.rpFind host g T = .ok o ∧ IsBest (Better (hashWords host g)) (candidates g T) o := by
  rw [rpFind_eq_select hT.known]
  exact select_isBest (fun _ _ _ => Better.trans) (hT.decides hfit) (hT.nodup.filter _)

theorem Wf.perm (hT : Wf T) (hperm : T'.Perm T) : Wf T' :=
  ⟨(hperm.map key).nodup_iff.mpr hT.distinct, fun r hr => hT.known r (hperm.mem_iff.mp hr)⟩

theorem MasksFit.perm (hfit : MasksFit g T) (hperm : T'.Perm T) : MasksFit g T' := by
  have hcand : (candidates g T').Perm (candidates g T) := hperm.filter _
  intro r hr s hs
  exact hfit r (hcand.mem_iff.mp hr) s (hcand.mem_iff.mp hs)

/-- There is an order of the table in which the hash of any two RPs of one rank is needed: the one
that begins with the two. -/
theorem MasksFit.of_orders (hT : Wf T)
    (h : ∀ T', T'.Perm T → ∃ o, Pim.rpFind host g T' = .ok o) : MasksFit g T := by
  intro r hr s hs hne hrank
  by_contra hlong
  obtain ⟨hrT, hrg⟩ := mem_candidates.mp hr
  obtain ⟨hsT, hsg⟩ := mem_candidates.mp hs
  have hsT' : s ∈ T.erase r := (mem_erase_of_ne hne.symm).mpr hsT
  have hperm : (r :: s :: (T.erase r).erase s).Perm T :=
    ((perm_cons_erase hsT').symm.cons r).trans (perm_cons_erase hrT).symm
  obtain ⟨o, ho⟩ := h _ hperm
  have hcand : candidates g (r :: s :: (T.erase r).erase s) =
      r :: s :: candidates g ((T.erase r).erase s) := by
    unfold candidates
    simp [hrg, hsg]
  rw [rpFind_eq_select (hT.perm hperm).known, hcand,
    select_cons_cons_error (compareRp_error (hT.known r hrT) (hT.known s hsT) hrank (by omega))]
    at ho
  cases ho

/-! ### The tables that are built -/

/-- `T'` is `T` with an entry for `r`: at the end, or in the place of the entry with its key. -/
structure Entered (r : PimRp f) (T T' : List (PimRp f)) : Prop where
  keys : T'.map key = T.map key ∨ key r ∉ T.map key ∧ T'.map key = T.map key ++ [key r]
  methods : ∀ s ∈ T', s.method = r.method ∨ ∃ t ∈ T, s.method = t.method

theorem Entered.cons (hne : key s ≠ key r) (h : Entered r T T') : Entered r (s :: T) (s :: T') := by
  constructor
  · rcases h.keys with hsame | ⟨hnew, hadded⟩
    · exact .inl (by simp [hsame])
    · exact .inr ⟨by simpa [hne.symm] using hnew, by simp [hadded]⟩
  · refine forall_mem_cons.mpr ⟨.inr ⟨s, mem_cons_self, rfl⟩, fun t ht => ?_⟩
    exact (h.methods t ht).imp_right fun ⟨u, hu, htu⟩ => ⟨u, mem_cons_of_mem _ hu, htu⟩

/-- An entry that is changed or not, but not in what it is for. -/
theorem Entered.head {r' : PimRp f} (hkey : key r' = key s) (hmethod : r'.method = s.method) :
    Entered r (s :: T) (r' :: T) := by
  constructor
  · exact .inl (by simp [hkey])
  · exact forall_mem_cons.mpr ⟨.inr ⟨s, mem_cons_self, hmethod⟩,
      fun t ht => .inr ⟨t, mem_cons_of_mem _ ht, rfl⟩⟩

theorem addRp_entered (h : addRp r T = some T') : Entered r T T' := by
  induction T generalizing T' with
  | nil =>
    cases h
    exact ⟨.inr ⟨by simp, rfl⟩, by simp⟩
  | cons old T ih =>
    unfold addRp at h
    split_ifs at h with haddr hnet hmethod hsame
    · obtain ⟨T₁, h₁, rfl⟩ := map_eq_some_iff.mp h
      exact (ih h₁).cons fun hkey => haddr (congrArg Prod.fst hkey)
    · obtain ⟨T₁, h₁, rfl⟩ := map_eq_some_iff.mp h
      exact (ih h₁).cons fun hkey => hnet (congrArg Prod.snd hkey)
    · cases h
      exact Entered.head rfl rfl
    · cases h
      exact Entered.head rfl rfl

theorem deleteRp_sublist {addr : Addr f} {net : IPNet f.bits} {method : Method}
    (h : deleteRp addr net method T = some T') : T'.Sublist T := by
  induction T generalizing T' with
  | nil => cases h
  | cons old T ih =>
    unfold deleteRp at h
    split_ifs at h
    iterate 3
      obtain ⟨T₁, h₁, rfl⟩ := map_eq_some_iff.mp h
      exact (ih h₁).cons_cons old
    · cases h
      exact sublist_cons_self old _

theorem deleteList_sublist {method : Method} (doomed : List (PimRp f)) :
    (deleteList method doomed T).Sublist T := by
  unfold deleteList
  induction doomed generalizing T with
  | nil => exact List.Sublist.refl T
  | cons r doomed ih =>
    rw [foldl_cons]
    refine ih.trans ?_
    cases h : deleteRp r.rpAddr r.groupPrefix method T with
    | none => exact List.Sublist.refl T
    | some T' => exact deleteRp_sublist h

theorem Wf.sublist (hT : Wf T) (h : T'.Sublist T) : Wf T' :=
  ⟨hT.distinct.sublist (h.map key), fun r hr => hT.known r (h.subset hr)⟩

theorem Wf.addRp (hT : Wf T) (hr : r.method ≠ .unknown) : Wf ((Pim.addRp r T).getD T) := by
  cases h : Pim.addRp r T with
  | none => exact hT
  | some T' =>
    obtain ⟨hkeys, hmethods⟩ := addRp_entered h
    constructor
    · rcases hkeys with hsame | ⟨hnew, hadded⟩
      · rw [getD_some, hsame]
        exact hT.distinct
      · rw [getD_some, hadded]
        refine nodup_append.mpr ⟨hT.distinct, nodup_singleton _, ?_⟩
        intro k hk k' hk' heq
        rw [mem_singleton.mp hk'] at heq
        exact hnew (heq ▸ hk)
    · intro s hs
      rcases hmethods s hs with hsr | ⟨t, ht, hst⟩
      · rw [hsr]
        exact hr
      · rw [hst]
        exact hT.known t ht

theorem Wf.deleteRp (hT : Wf T) (addr : Addr f) (net : IPNet f.bits) (method : Method) :
    Wf ((Pim.deleteRp addr net method T).getD T) := by
  cases h : Pim.deleteRp addr net method T with
  | none => exact hT
  | some T' => exact hT.sublist (deleteRp_sublist h)

theorem Wf.addConfigStaticRp (hT : Wf T) (net : IPNet f.bits) (addr : Addr f)
    (priority hashMaskLen : Fin 256) :
    Wf ((Pim.addConfigStaticRp net addr priority hashMaskLen T).getD T) := by
  unfold Pim.addConfigStaticRp
  split
  · exact hT
  · split
    · exact hT
    · exact hT.addRp nofun

theorem Wf.nil : Wf ([] : List (PimRp f)) := ⟨nodup_nil, by simp⟩

theorem Wf.step (hT : Wf T) (op : Op f) : Wf (step T op) := by
  cases op with
  | addStatic net addr priority hashMaskLen =>
    exact hT.addConfigStaticRp net addr priority hashMaskLen
  | deleteStatic addr net => exact hT.deleteRp addr net .static
  | deleteStaticAddr addr => exact hT.sublist (deleteList_sublist _)
  | deleteStaticAll => exact hT.sublist (deleteList_sublist _)
  | addBootstrap addr priority net hashMaskLen => exact hT.addRp nofun
  | deleteBootstrap addr net => exact hT.deleteRp addr net .bootstrap
  | stop => exact Wf.nil

theorem Reach.wf (hT : Reach T) : Wf T := by
  induction hT with
  | empty => exact Wf.nil
  | step _ op ih => exact ih.step op

/-! ### What is found -/

/-- The RP that all routers should choose is also the first of its rank by the hash of the words as
the host reads them. -/
def HashAgrees (host : Host) (g : Addr f) (T : List (PimRp f)) : Prop :=
  ∀ r ∈ candidates g T, Chosen g T (some r) → ∀ s ∈ candidates g T, s ≠ r → SameRank r s →
    hashWords host g s < hashWords host g r ∨
      hashWords host g s = hashWords host g r ∧ s.rpAddr < r.rpAddr

theorem hashAgrees_big (g : Addr f) (T : List (PimRp f)) : HashAgrees .big g T := by
  intro r _ hchosen s hs hne hrank
  rw [hashWords_big]
  exact hrank.better_iff.mp (hchosen.2 s hs hne)

/-- On any host the hash is not asked where the RP that is chosen is alone in its rank. -/
theorem hashAgrees_of_alone (host : Host)
    (h : ∀ r ∈ candidates g T, Chosen g T (some r) → ∀ s ∈ candidates g T, s ≠ r → ¬ SameRank r s) :
    HashAgrees host g T :=
  fun r hr hchosen s hs hne hrank => absurd hrank (h r hr hchosen s hs hne)

/-- The rank does not depend on the hash. -/
theorem Better.sameRank_or {h' : PimRp f → Nat} (hrs : Better h r s) :
    SameRank r s ∨ Better h' r s := by
  by_cases hlen : r.groupPrefix.prefixLen = s.groupPrefix.prefixLen
  · by_cases hpri : r.rpPriority = s.rpPriority
    · exact .inl ⟨hlen, hpri⟩
    · refine .inr (.inr ⟨hlen.symm, ?_⟩)
      unfold Better at hrs
      omega
  · refine .inr (.inl ?_)
    unfold Better at hrs
    omega

/-- The choice of the rule is that of the host. -/
theorem HashAgrees.isBest {o : Option (PimRp f)} (hagrees : HashAgrees host g T)
    (ho : Chosen g T o) : IsBest (Better (hashWords host g)) (candidates g T) o := by
  cases o with
  | none =>
    have hnil : candidates g T = [] := ho
    exact hnil
  | some r =>
    refine ⟨ho.1, fun s hs hne => ?_⟩
    rcases (ho.2 s hs hne).sameRank_or with hrank | hbetter
    · exact hrank.better_iff.mpr (hagrees r ho.1 ho s hs hne hrank)
    · exact hbetter

theorem Wf.exists_chosen (hT : Wf T) (hfit : MasksFit g T) : ∃ o, Chosen g T o := by
  obtain ⟨o, -, ho⟩ := hT.rpFind .big hfit
  rw [hashWords_big] at ho
  exact ⟨o, ho⟩

/-- In every table that is built from the configuration and from Bootstrap messages, and for every
group: the lookup returns the RP that all routers should choose, in every order of the table, exactly
when the hash mask lengths of RPs of one rank are not longer than the address, and the byte order of
the host does not change which RP has the highest hash. -/
theorem rp_find_chosen_iff (hT : Reach T) (host : Host) (g : Addr f) :
    (∀ T', T'.Perm T → ∃ o, rpFind host g T' = .ok o ∧ Chosen g T o) ↔
      MasksFit g T ∧ HashAgrees host g T := by
  have hwf := hT.wf
  constructor
  · intro h
    have hfit : MasksFit g T :=
      .of_orders hwf fun T' hperm => (h T' hperm).imp fun _ ho => ho.1
    refine ⟨hfit, fun r _ hchosen s hs hne hrank => ?_⟩
    obtain ⟨o, hfind, ho⟩ := h T (.refl T)
    obtain ⟨o', hfind', ho'⟩ := hwf.rpFind host hfit
    rw [hfind] at hfind'
    cases hfind'
    obtain rfl : o = some r := ho.unique (fun _ _ => Better.asymm) hchosen
    exact hrank.better_iff.mp (ho'.2 s hs hne)
  · rintro ⟨hfit, hagrees⟩ T' hperm
    obtain ⟨o, hfind, ho⟩ := (hwf.perm hperm).rpFind host (hfit.perm hperm)
    obtain ⟨o', ho'⟩ := hwf.exists_chosen hfit
    have hbest := ho.perm (hperm.filter _)
    obtain rfl : o = o' := hbest.unique (fun _ _ => Better.asymm) (hagrees.isBest ho')
    exact ⟨o, hfind, ho'⟩

/-- The group 224.1.1.1. -/
def group : Addr .inet := 0xe0010101#32

/-- Two RPs of one Bootstrap message, with a hash mask length. -/
def twoRps (len : Fin 256) : List (PimRp .inet) :=
  step (step [] (.addBootstrap 0x0a000001#32 ⟨192, by decide⟩ (multicastBase .inet) len))
    (.addBootstrap 0x0a000002#32 ⟨192, by decide⟩ (multicastBase .inet) len)

theorem reach_twoRps (len : Fin 256) : Reach (twoRps len) := (Reach.empty.step _).step _

theorem rp_find_chosen_big : Reach (twoRps 30) ∧ ∀ T', T'.Perm (twoRps 30) →
    ∃ o, rpFind .big group T' = .ok o ∧ Chosen group (twoRps 30) o := by
  refine ⟨reach_twoRps 30, (rp_find_chosen_iff (reach_twoRps 30) .big _).mpr ⟨?_, hashAgrees_big _ _⟩⟩
  intro r hr s _ _ _
  have hall : ∀ r ∈ twoRps 30, r.hashMaskLen ≤ Family.inet.bits := by decide +kernel
  exact hall r (mem_candidates.mp hr).1

/-- A hash mask length of 33 in a Bootstrap message makes the lookup throw; and with a length of 30 a
little endian host takes another RP than the one with the highest hash. -/
theorem rp_find_not_chosen :
    (Reach (twoRps 33) ∧
      rpFind .little group (twoRps 33) = .error (.invalidNetmaskLength 33) ∧
      rpFind .big group (twoRps 33) = .error (.invalidNetmaskLength 33)) ∧
    ∃ r s, Reach (twoRps 30) ∧ Chosen group (twoRps 30) (some r) ∧
      rpFind .little group (twoRps 30) = .ok (some s) ∧ r.rpAddr = 0x0a000001#32 ∧
      s.rpAddr = 0x0a000002#32 := by
  refine ⟨⟨reach_twoRps 33, by rfl, by rfl⟩, ?_⟩
  refine ⟨⟨0x0a000001#32, 192, multicastBase .inet, 30, .bootstrap⟩,
    ⟨0x0a000002#32, 192, multicastBase .inet, 30, .bootstrap⟩, reach_twoRps 30, ⟨?_, ?_⟩, ?_, rfl, rfl⟩
  · decide +kernel
  · decide +kernel
  · rfl

end Xorp.Pim

/-
Erasing by key.

`erase(key)` erases what `find` finds, and `find` is a longest match.  So it takes the
entry of the key if there is one, and otherwise that of the longest stored prefix around
it.  Only a key that is stored, or that no stored prefix contains, is erased and nothing
else.  The iterators that stand on nodes of a `RefTrie` make no difference, as long as no
count is full; but on an empty `RefTrie` the call goes through a null pointer.
-/
import Xorp.RefTrie.Agree
import Xorp.RefTrie.Iterators
import Xorp.Trie.Reachable

namespace Xorp

open Linked PrefixTree

variable {w : Nat} {P X : Type}

section
variable {H H' : IPNet w → P → Prop} {k : IPNet w} {unchanged : Prop}

/-- Only the key goes, and where it is not stored nothing happens at all. -/
def ErasesKey (H H' : IPNet w → P → Prop) (k : IPNet w) (unchanged : Prop) : Prop :=
  (∀ n p, H' n p ↔ H n p ∧ n ≠ k) ∧ ((∀ p, ¬ H k p) → unchanged)

/-- The key is stored, or nothing around it is. -/
def NamesEntry (H : IPNet w → P → Prop) (k : IPNet w) : Prop :=
  (∃ p, H k p) ∨ ∀ n p, H n p → n.contains k = false

/-- Where `find` finds nothing nothing happens, and otherwise what it finds goes. -/
theorem erasesKey_iff {t : NodeTree w P X} (sel : Label w P X → Bool)
    (hwf : PrefixTree.WF nodeKey nodeFull t)
    (hmem : ∀ n p, H n p → ∃ a ∈ t.nodes, sel a = true ∧ nodeKey a = n)
    (hstored : ∀ a ∈ t.nodes, sel a = true → ∃ p, H (nodeKey a) p)
    (hnone : find nodeKey sel k t = none → unchanged ∧ H' = H)
    (hsome : ∀ a, find nodeKey sel k t = some a → ∀ n p, H' n p ↔ H n p ∧ n ≠ nodeKey a) :
    ErasesKey H H' k unchanged ↔ NamesEntry H k := by
  cases hfind : find nodeKey sel k t with
  | none =>
    have hno : ∀ n p, H n p → n.contains k = false := by
      intro n p hn
      obtain ⟨a, ha, hs, rfl⟩ := hmem n p hn
      exact (find_eq_none hwf).mp hfind a ha hs
    obtain ⟨hsame, rfl⟩ := hnone hfind
    refine iff_of_true ⟨fun n p => (and_iff_left_of_imp ?_).symm, fun _ => hsame⟩ (.inr hno)
    rintro hn rfl
    exact absurd (hno n p hn) (by simp [IPNet.contains_refl])
  | some a =>
    have hlong := find_longest hwf hfind
    have hgone := hsome a hfind
    obtain ⟨q, hq⟩ := hstored a hlong.mem hlong.stored
    by_cases hk : ∃ p, H k p
    · -- a stored key is its own longest match
      obtain ⟨p, hp⟩ := hk
      obtain ⟨b, hb, hs, hbk⟩ := hmem k p hp
      have hka := hlong.longest b hb hs (by rw [hbk, IPNet.contains_refl])
      obtain rfl : nodeKey a = k := IPNet.contains_antisymm hlong.contains (hbk ▸ hka)
      exact iff_of_true ⟨hgone, fun hno => absurd hp (hno p)⟩ (.inl ⟨p, hp⟩)
    · refine iff_of_false (fun h => ?_) fun h => ?_
      · have hne : nodeKey a ≠ k := fun heq => hk ⟨q, heq ▸ hq⟩
        exact ((hgone _ q).mp ((h.1 _ q).mpr ⟨hq, hne⟩)).2 rfl
      · exact absurd (h.resolve_left hk _ q hq) (by simp [hlong.contains])

end

theorem Trie.Represents.erasesKey_iff {T T' : Trie w P} {t : BinTree (Nat × Node w P Unit)}
    {k : IPNet w} (R : Represents T t) (herase : T.erase k = .ok T') :
    ErasesKey T.Has T'.Has k (T' = T) ↔ NamesEntry T.Has k := by
  have hfull : ∀ {a : Nat × Node w P Unit} {p}, a.2.p = some p → nodeFull a = true :=
    fun hp => Option.isSome_iff_exists.mpr ⟨_, hp⟩
  refine Xorp.erasesKey_iff nodeFull R.wf (fun n p hn => ?_) (fun a ha hf => ?_)
    (fun hfind => ?_) fun a hfind n p => ?_
  · obtain ⟨a, ha, hk, hp⟩ := R.has_iff.mp hn
    exact ⟨a, ha, hfull hp, hk⟩
  · obtain ⟨p, hp⟩ := Option.isSome_iff_exists.mp hf
    exact ⟨p, R.has_iff.mpr ⟨a, ha, rfl, hp⟩⟩
  · cases (erase_of_none R k hfind).symm.trans herase
    exact ⟨rfl, rfl⟩
  · obtain ⟨T₁, hrun, R', -⟩ := erase_represents R hfind
    cases hrun.symm.trans herase
    rw [R'.has_iff, R.has_iff]
    constructor
    · rintro ⟨b, hb, rfl, hp⟩
      obtain ⟨hb, hne⟩ := (Mem.mem_eraseTree R.wf (hfull hp)).mp hb
      exact ⟨⟨b, hb, rfl, hp⟩, hne⟩
    · rintro ⟨⟨b, hb, rfl, hp⟩, hne⟩
      exact ⟨b, (Mem.mem_eraseTree R.wf (hfull hp)).mpr ⟨hb, hne⟩, rfl, hp⟩

namespace RefTrie

/-- The prefix is stored with the payload, and not deleted. -/
def Has (T : RefTrie w P) (k : IPNet w) (p : P) : Prop :=
  ∃ i c, T.heap.cells i = some c ∧ c.data.k = k ∧ c.data.p = some p ∧ deleted c.data.x = false

section
variable {T T' : RefTrie w P} {hs : List Nat} {t : RefNodeTree w P} {k : IPNet w} {p : P}

theorem has_iff (C : Counts T.heap hs t) : T.Has k p ↔ Lists t k p := by
  constructor
  · rintro ⟨i, c, hi, hk, hp, hdel⟩
    obtain ⟨a, ha, -, hdata⟩ := C.holds.mem_of_cell hi
    rw [hdata] at hk hp hdel
    exact ⟨a, ha, Prod.ext hk hp, hdel⟩
  · rintro ⟨a, ha, hentry, hdel⟩
    obtain ⟨c, hc, hdata⟩ := C.holds.cell_of_mem ha
    rw [← hdata] at hdel
    exact ⟨a.1, c, hc, by rw [hdata]; exact congrArg Prod.fst hentry,
      by rw [hdata]; exact congrArg Prod.snd hentry, hdel⟩

theorem root_of_erase (herase : T.erase k = .ok T') : T.heap.root ≠ none := by
  intro hroot
  rw [erase, find, Mem.deref, if_pos hroot] at herase
  cases herase

theorem erasesKey_iff (C : Counted T.heap hs t) (herase : T.erase k = .ok T') :
    ErasesKey T.Has T'.Has k (T' = T) ↔ NamesEntry T.Has k := by
  refine Xorp.erasesKey_iff stored C.wf (fun n p hn => ?_) (fun a ha hst => ?_)
    (fun hfind => ?_) fun a hfind n p => ?_
  · obtain ⟨a, ha, hentry, hdel⟩ := (has_iff C.toCounts).mp hn
    exact ⟨a, ha, stored_iff.mpr ⟨congrArg (fun e => e.2.isSome) hentry, hdel⟩,
      congrArg Prod.fst hentry⟩
  · obtain ⟨hf, hdel⟩ := stored_iff.mp hst
    obtain ⟨p, hp⟩ := Option.isSome_iff_exists.mp hf
    exact ⟨p, (has_iff C.toCounts).mpr ⟨a, ha, Prod.ext rfl hp, hdel⟩⟩
  · cases (erase_of_none C.toCounts (root_of_erase herase) hfind).symm.trans herase
    exact ⟨rfl, rfl⟩
  · have h := erase_of_some C hfind (fun i => Nat.le_add_right _ _)
    rw [herase] at h
    obtain ⟨t', C', hlists⟩ := h
    rw [has_iff C'.toCounts, has_iff C.toCounts]
    exact hlists.lists n p

end

end RefTrie

/-- **Erasing by key affects only that key** if the key is stored or nothing stored contains it;
and a `RefTrie` has to have a root. -/
theorem erase_only_key_iff (ops : List (Trie.Op w P)) (calls : List (RefTrie.Op w P))
    (k : IPNet w) :
    (∃ T T', Trie.empty.run ops = .ok T ∧ T.erase k = .ok T' ∧
      (ErasesKey T.Has T'.Has k (T' = T) ↔ NamesEntry T.Has k)) ∧
    ∀ M, RefTrie.Machine.empty.legalRun calls = true → RefTrie.Machine.empty.run calls = .ok M →
      ¬ Crowded M.holders →
        ((∃ T', M.trie.erase k = .ok T' ∧ ErasesKey M.trie.Has T'.Has k (T' = M.trie)) ↔
          M.trie.heap.root ≠ none ∧ NamesEntry M.trie.Has k) := by
  constructor
  · obtain ⟨T, hrun, hT⟩ := Trie.exists_run ops
    obtain ⟨T', herase, -⟩ := Trie.step_shaped hT (.erase k)
    obtain ⟨t, R, -⟩ := hT
    exact ⟨T, T', hrun, herase, R.erasesKey_iff herase⟩
  · intro M hlegal hrun hroom
    obtain ⟨t, C⟩ := RefTrie.Machine.inv_of_run .empty hlegal hrun
    constructor
    · rintro ⟨T', herase, h⟩
      exact ⟨RefTrie.root_of_erase herase, (RefTrie.erasesKey_iff C herase).mp h⟩
    · rintro ⟨hroot, hnames⟩
      rcases (RefTrie.erase_counted C (k := k) (fun i => Nat.le_add_right _ _) hroot).ok_or with
        ⟨T', herase, -⟩ | ⟨e, -, -, hcrowd⟩
      · exact ⟨T', herase, (RefTrie.erasesKey_iff C herase).mpr hnames⟩
      · contradiction

/-- 10.0.0.0/8 -/
def cover : IPNet 32 := .ofAddr 0x0a000000 8 (by decide)

/-- 10.1.0.0/16 -/
def inside : IPNet 32 := .ofAddr 0x0a010000 16 (by decide)

/-- Three entries, of which one is inside another, with an iterator on each; the one inside
is erased by its key. -/
theorem erase_only_key_iff_held : let calls : List (RefTrie.Op 32 Nat) :=
      [.insert cover 1, .insert inside 2, .insert (.ofAddr 0x0b000000 8 (by decide)) 3]
    ∃ (M : RefTrie.Machine 32 Nat) (T' : RefTrie 32 Nat),
      RefTrie.Machine.empty.run calls = .ok M ∧ M.trie.erase inside = .ok T' ∧
      ErasesKey M.trie.Has T'.Has inside (T' = M.trie) ∧ T'.payloadCount = 2 := by
  intro calls
  refine ⟨_, _, rfl, rfl, ?_, rfl⟩
  have h := ((erase_only_key_iff [] calls inside).2 _ (by decide +kernel) rfl ?_).mpr ⟨?_, ?_⟩
  · obtain ⟨T', herase, h⟩ := h
    cases herase
    exact h
  · rintro ⟨i, hi⟩
    exact absurd (hi.trans List.count_le_length) (by decide +kernel)
  · decide +kernel
  · exact .inl ⟨2, 1, _, rfl, rfl, rfl, by decide⟩

/-- The key is not stored, and the prefix around it goes; from an empty `RefTrie` it cannot be
erased at all. -/
theorem erase_takes_cover : inside ≠ cover ∧
    (Trie.empty.run [.insert cover ()]).map Trie.payloadCount = .ok 1 ∧
    (Trie.empty.run [.insert cover (), .erase inside]).map Trie.payloadCount = .ok 0 ∧
    (RefTrie.empty.run [.insert cover ()]).map RefTrie.payloadCount = .ok 1 ∧
    (RefTrie.empty.run [.insert cover (), .erase inside]).map RefTrie.payloadCount = .ok 0 ∧
    (RefTrie.empty.run [.erase inside] : Except Fault (RefTrie 32 Unit)) = .error .badPointer :=
  ⟨by decide, rfl, rfl, rfl, rfl, rfl⟩

end Xorp

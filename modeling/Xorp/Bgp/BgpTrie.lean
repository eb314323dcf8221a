/-
The routes of a peer, by net and by path attributes.

A `BgpTrie` keeps its routes in a trie, and those with the same attributes in a circular
chain, with the head of each chain in a map.  Nothing but pointers ties the two together: an
insertion copies the route into the chain beside a temporary one, and an erasure takes the
route out of its chain, which may move the head or end the chain.

Routes are counted references in memory.  A pointer that is followed after its route is gone
is a fault here, and so is the end of the map.
-/
import Xorp.Lib.OrderedSet
import Xorp.Lib.Ring
import Xorp.Trie.PrefixMap

namespace Xorp.Bgp

open Linked Ring Function PrefixMap List Option

variable {w : Nat} {α ρ : Type}

structure BgpTrie (w : Nat) (α ρ : Type) where
  /-- the trie, with the addresses of the routes -/
  trie : PrefixMap w Nat
  /-- the routes in memory -/
  objects : Nat → Option ρ
  links : Links Nat
  /-- the keys of the pathmap, in order -/
  keys : List α
  /-- the head of the chain of each key -/
  head : α → Nat
  /-- the next address that is free -/
  fresh : Nat

namespace BgpTrie

def empty : BgpTrie w α ρ := ⟨.empty, fun _ => none, ⟨id, id⟩, [], fun _ => 0, 0⟩

section
variable (B : BgpTrie w α ρ)

def deref (x : Nat) : Except Fault ρ :=
  match B.objects x with
  | some r => .ok r
  | none => .error .badPointer

/-- The last reference to a route goes. -/
def unref (x : Nat) : BgpTrie w α ρ := { B with objects := Function.update B.objects x none }

/-- `ChainedSubnetRoute(route, NULL)`. -/
def newAlone (x : Nat) (r : ρ) : BgpTrie w α ρ :=
  { B with objects := Function.update B.objects x (some r), links := B.links.alone x }

/-- `ChainedSubnetRoute(route, prev)`, and the copy constructor. -/
def newAfter (prev x : Nat) (r : ρ) : Except Fault (BgpTrie w α ρ) := do
  let _ ← B.deref prev
  let _ ← B.deref (B.links.next prev)
  pure
    { B with
      objects := Function.update B.objects x (some r), links := B.links.insertAfter prev x }

def unchain (x : Nat) : Except Fault (BgpTrie w α ρ) := do
  let _ ← B.deref (B.links.prev x)
  let _ ← B.deref (B.links.next x)
  pure { B with links := B.links.unchain x }

variable [LinearOrder α]

/-- `_pathmap.find`. -/
def find (a : α) : Option Nat := if a ∈ B.keys then some (B.head a) else none

/-- `_pathmap[a] = x`. -/
def setHead (a : α) (x : Nat) : BgpTrie w α ρ :=
  { B with keys := OrderedSet.insert id a B.keys, head := Function.update B.head a x }

variable (net : ρ → IPNet w) (attributes : ρ → α)

/-- The trie copies a temporary route, and the copy is chained in after it. -/
def insert (r : ρ) : Except Fault (BgpTrie w α ρ) := do
  let found := B.find (attributes r)
  let chained := B.fresh
  let B₁ ← match found with
    | none => pure (B.newAlone chained r)
    | some prev => B.newAfter prev chained r
  let copy := B.fresh + 1
  let B₂ ← B₁.newAfter chained copy r
  let B₃ := { B₂ with trie := B₂.trie.insert (net r) copy, fresh := B.fresh + 2 }
  let B₄ := if found.isNone then B₃.setHead (attributes r) copy else B₃
  let B₅ ← B₄.unchain chained
  pure (B₅.unref chained)

def erase (n : IPNet w) : Except Fault (BgpTrie w α ρ) :=
  match B.trie.get n with
  | none => .error .assertion
  | some found => do
      let r ← B.deref found
      if net r ≠ n then .error .assertion
      else
        match B.find (attributes r) with
        | none => .error .abort
        | some first => do
            let B₁ ←
              if first = found then
                if B.links.next found = found then
                  pure { B with keys := OrderedSet.erase (attributes r) B.keys }
                else (B.setHead (attributes r) (B.links.next found)).unchain found
              else B.unchain found
            pure { B₁ with trie := B₁.trie.erase n }

end

/-- What the trie holds. -/
def content (B : BgpTrie w α ρ) (n : IPNet w) : Option ρ := (B.trie.get n).bind B.objects

variable {B : BgpTrie w α ρ} {x : Nat} {r : ρ}

section

theorem deref_eq (h : B.objects x = some r) : B.deref x = .ok r := by
  rw [deref, h]

variable {r₁ r₂ : ρ}

theorem newAfter_eq {p : Nat} (h₁ : B.objects p = some r₁)
    (h₂ : B.objects (B.links.next p) = some r₂) : B.newAfter p x r = .ok { B with
        objects := update B.objects x (some r), links := B.links.insertAfter p x } := by
  rw [newAfter, deref_eq h₁, ok_bind, deref_eq h₂, ok_bind]
  rfl

theorem unchain_eq (h₁ : B.objects (B.links.prev x) = some r₁)
    (h₂ : B.objects (B.links.next x) = some r₂) :
    B.unchain x = .ok { B with links := B.links.unchain x } := by
  rw [unchain, deref_eq h₁, ok_bind, deref_eq h₂, ok_bind]
  rfl

/-- The last reference to a route that is not in the trie makes no difference to it. -/
theorem content_unref (hgone : ∀ n, B.trie.get n ≠ some x) : (B.unref x).content = B.content := by
  funext n
  rw [content, content]
  show (B.trie.get n).bind (update B.objects x none) = _
  cases hz : B.trie.get n with
  | none => rfl
  | some z =>
    have hne : z ≠ x := fun he => hgone n (he ▸ hz)
    exact update_of_ne hne ..

end

/-! ### The chains -/

/-- `chains` lists the chain of each key, the head first. -/
structure Chains (L : Links Nat) (keys : List α) (head : α → Nat) (chains : α → List Nat) :
    Prop where
  mem_keys : ∀ a, a ∈ keys ↔ chains a ≠ []
  ring : ∀ a h t, chains a = h :: t → head a = h ∧ IsRing L h t
  disjoint : ∀ a b x, x ∈ chains a → x ∈ chains b → a = b

variable {chains : α → List Nat}

namespace Chains

variable {L L' : Links Nat} {keys keys' : List α} {head head' : α → Nat} {a : α} {l t : List Nat}
  {h x y : Nat}

section
variable (hc : Chains L keys head chains)
include hc

/-- One chain changes.  The links of the others must be left alone. -/
theorem change [DecidableEq α] (hkeys : ∀ b, b ≠ a → (b ∈ keys' ↔ b ∈ keys))
    (hkey : a ∈ keys' ↔ l ≠ []) (hhead : ∀ b, b ≠ a → head' b = head b)
    (hlinks : ∀ b, b ≠ a → ∀ z ∈ chains b, L'.next z = L.next z ∧ L'.prev z = L.prev z)
    (hring : ∀ h t, l = h :: t → head' a = h ∧ IsRing L' h t)
    (hoff : ∀ b, b ≠ a → ∀ z ∈ chains b, z ∉ l) :
    Chains L' keys' head' (update chains a l) := by
  constructor
  · intro b
    by_cases hb : b = a
    · rw [hb, update_self]
      exact hkey
    · rw [update_of_ne hb, hkeys b hb]
      exact hc.mem_keys b
  · intro b h t hb'
    by_cases hb : b = a
    · rw [hb, update_self] at hb'
      rw [hb]
      exact hring h t hb'
    · rw [update_of_ne hb] at hb'
      obtain ⟨hh, hr⟩ := hc.ring b h t hb'
      refine ⟨(hhead b hb).trans hh, hr.congr ?_ ?_⟩
      · intro z hz
        exact (hlinks b hb z (hb' ▸ hz)).1
      · intro z hz
        exact (hlinks b hb z (hb' ▸ hz)).2
  · intro b c x hxb hxc
    by_cases hb : b = a
    · by_cases hcc : c = a
      · rw [hb, hcc]
      · rw [hb, update_self] at hxb
        rw [update_of_ne hcc] at hxc
        exact absurd hxb (hoff c hcc x hxc)
    · rw [update_of_ne hb] at hxb
      by_cases hcc : c = a
      · rw [hcc, update_self] at hxc
        exact absurd hxc (hoff b hb x hxb)
      · rw [update_of_ne hcc] at hxc
        exact hc.disjoint b c x hxb hxc

theorem not_mem {b : α} (hb : b ≠ a) {z : Nat} (hz : z ∈ chains b) : z ∉ chains a :=
  fun hza => hb (hc.disjoint b a z hz hza)

/-- The only route of a chain goes, and the chain with it. -/
theorem takeOnly [DecidableEq α] :
    Chains L (OrderedSet.erase a keys) head (update chains a []) := by
  refine hc.change ?_ ?_ (fun _ _ => rfl) (fun _ _ _ _ => ⟨rfl, rfl⟩) ?_ ?_
  · intro b hb
    rw [OrderedSet.mem_erase]
    exact and_iff_left hb
  · rw [OrderedSet.mem_erase]
    exact ⟨fun h => absurd rfl h.2, fun h => absurd rfl h⟩
  · intro h t hnil
    exact absurd hnil (cons_ne_nil h t).symm
  · intro b _ z _
    exact not_mem_nil

/-- The head of a chain goes, and the head of the map moves on. -/
theorem takeHead [LinearOrder α] (ha : chains a = x :: y :: t) :
    Chains (L.unchain x) (OrderedSet.insert id a keys) (update head a y)
      (update chains a (y :: t)) := by
  have hr := (hc.ring a x (y :: t) ha).2
  refine hc.change ?_ ?_ (fun _ hb => update_of_ne hb ..) ?_ ?_ ?_
  · intro b hb
    rw [OrderedSet.mem_insert fun _ _ h => injective_id h]
    exact or_iff_right hb
  · rw [OrderedSet.mem_insert fun _ _ h => injective_id h]
    exact ⟨fun _ => cons_ne_nil y t, fun _ => .inl rfl⟩
  · intro b hb z hz
    exact hr.unchain_off mem_cons_self (ha ▸ hc.not_mem hb hz)
  · intro h t' hl
    obtain ⟨rfl, rfl⟩ := List.cons.inj hl
    exact ⟨update_self .., hr.unchain_head⟩
  · intro b hb z hz hmem
    exact hc.not_mem hb hz (ha ▸ mem_cons_of_mem x hmem)

/-- Another route of a chain goes. -/
theorem takeInner [DecidableEq α] {pre post : List Nat} (ha : chains a = h :: (pre ++ x :: post)) :
    Chains (L.unchain x) keys head (update chains a (h :: (pre ++ post))) := by
  obtain ⟨hh, hr⟩ := hc.ring a h _ ha
  have hx : x ∈ h :: (pre ++ x :: post) := mem_cons_of_mem h mem_append_cons_self
  refine hc.change (fun _ _ => Iff.rfl) ?_ (fun _ _ => rfl) ?_ ?_ ?_
  · rw [hc.mem_keys, ha]
    exact iff_of_true (cons_ne_nil _ _) (cons_ne_nil _ _)
  · intro b hb z hz
    exact hr.unchain_off hx (ha ▸ hc.not_mem hb hz)
  · intro h' t' hl
    obtain ⟨rfl, rfl⟩ := List.cons.inj hl
    exact ⟨hh, hr.unchain⟩
  · intro b hb z hz hmem
    refine hc.not_mem hb hz (ha ▸ ?_)
    rcases mem_cons.mp hmem with rfl | hmem
    · exact mem_cons_self
    · refine mem_cons_of_mem h ?_
      rw [mem_append] at hmem ⊢
      exact hmem.imp id (mem_cons_of_mem x)

end

variable {chained copy : Nat}

/-- A route is copied into a chain behind `h`: the temporary one comes between them, and is
taken out again. -/
theorem copyAfter (hr : IsRing L h t) (h₁ : chained ∉ h :: t) (h₂ : copy ∉ h :: t)
    (hne : copy ≠ chained) :
    IsRing (((L.insertAfter h chained).insertAfter chained copy).unchain chained) h (copy :: t) ∧
      ∀ z ∉ h :: t, z ≠ chained → z ≠ copy →
        (((L.insertAfter h chained).insertAfter chained copy).unchain chained).next z = L.next z ∧
        (((L.insertAfter h chained).insertAfter chained copy).unchain chained).prev z =
          L.prev z := by
  have hr₁ : IsRing (L.insertAfter h chained) h ([] ++ chained :: t) := hr.insertAfter h₁
  have hcopy : copy ∉ h :: ([] ++ chained :: t) := by
    intro hmem
    rcases mem_cons.mp hmem with he | hmem
    · exact h₂ (he ▸ mem_cons_self)
    · rcases mem_cons.mp hmem with he | hmem
      · exact hne he
      · exact h₂ (mem_cons_of_mem h hmem)
  have hr₂ := hr₁.insertAfter_mem hcopy
  refine ⟨hr₂.unchain, ?_⟩
  intro z hz hz₁ hz₂
  have hz' : z ∉ h :: ([] ++ chained :: t) := by
    simp only [nil_append, mem_cons, not_or] at hz ⊢
    exact ⟨hz.1, hz₁, hz.2⟩
  have hz'' : z ∉ h :: ([] ++ chained :: copy :: t) := by
    simp only [nil_append, mem_cons, not_or] at hz ⊢
    exact ⟨hz.1, hz₁, hz₂, hz.2⟩
  have hoff₁ := hr.insertAfter_off mem_cons_self hz hz₁
  have hoff₂ := hr₁.insertAfter_off (mem_cons_of_mem h mem_cons_self) hz' hz₂
  have hoff₃ := hr₂.unchain_off (mem_cons_of_mem h mem_cons_self) hz''
  exact ⟨hoff₃.1.trans (hoff₂.1.trans hoff₁.1), hoff₃.2.trans (hoff₂.2.trans hoff₁.2)⟩

/-- A route joins a chain. -/
theorem putIn [DecidableEq α] (hc : Chains L keys head chains) (ha : chains a = h :: t)
    (h₁ : ∀ b, chained ∉ chains b) (h₂ : ∀ b, copy ∉ chains b) (hne : copy ≠ chained) :
    Chains (((L.insertAfter h chained).insertAfter chained copy).unchain chained) keys head
      (update chains a (h :: copy :: t)) := by
  obtain ⟨hh, hr⟩ := hc.ring a h t ha
  obtain ⟨hring, hoff⟩ := copyAfter hr (ha ▸ h₁ a) (ha ▸ h₂ a) hne
  refine hc.change (fun _ _ => Iff.rfl) ?_ (fun _ _ => rfl) ?_ ?_ ?_
  · rw [hc.mem_keys, ha]
    exact iff_of_true (cons_ne_nil _ _) (cons_ne_nil _ _)
  · intro b hb z hz
    exact hoff z (ha ▸ hc.not_mem hb hz) (fun he => h₁ b (he ▸ hz)) (fun he => h₂ b (he ▸ hz))
  · intro h' t' hl
    obtain ⟨rfl, rfl⟩ := List.cons.inj hl
    exact ⟨hh, hring⟩
  · intro b hb z hz hmem
    have hza := ha ▸ hc.not_mem hb hz
    simp only [mem_cons, not_or] at hmem hza
    rcases hmem with he | he | he
    · exact hza.1 he
    · exact h₂ b (he ▸ hz)
    · exact hza.2 he

/-- A route starts a chain. -/
theorem putNew [LinearOrder α] (hc : Chains L keys head chains) (h₁ : ∀ b, chained ∉ chains b)
    (h₂ : ∀ b, copy ∉ chains b) (hne : copy ≠ chained) :
    Chains (((L.alone chained).insertAfter chained copy).unchain chained)
      (OrderedSet.insert id a keys) (update head a copy)
      (update chains a [copy]) := by
  have hr := IsRing.alone L chained
  have hr₁ := hr.insertAfter (x := copy) (by simpa using hne)
  refine hc.change ?_ ?_ (fun _ hb => update_of_ne hb ..) ?_ ?_ ?_
  · intro b hb
    rw [OrderedSet.mem_insert fun _ _ h => injective_id h]
    exact or_iff_right hb
  · rw [OrderedSet.mem_insert fun _ _ h => injective_id h]
    exact ⟨fun _ => cons_ne_nil copy [], fun _ => .inl rfl⟩
  · intro b hb z hz
    have hz₁ : z ≠ chained := fun he => h₁ b (he ▸ hz)
    have hz₂ : z ≠ copy := fun he => h₂ b (he ▸ hz)
    have hoff₁ := hr.insertAfter_off mem_cons_self (by simpa using hz₁) hz₂
    have hz' : z ∉ [chained, copy] := by simp [hz₁, hz₂]
    have hoff₂ := hr₁.unchain_off mem_cons_self hz'
    refine ⟨hoff₂.1.trans (hoff₁.1.trans ?_), hoff₂.2.trans (hoff₁.2.trans ?_)⟩
    · exact update_of_ne hz₁ ..
    · exact update_of_ne hz₁ ..
  · intro h t hl
    obtain ⟨rfl, rfl⟩ := List.cons.inj hl
    exact ⟨update_self .., hr₁.unchain_head⟩
  · intro b hb z hz hmem
    exact h₂ b (mem_singleton.mp hmem ▸ hz)

end Chains

/-! ### The trie and the chains agree -/

section
variable [LinearOrder α] (net : ρ → IPNet w) (attributes : ρ → α)

structure Valid (B : BgpTrie w α ρ) (chains : α → List Nat) : Prop where
  sorted : OrderedSet.Sorted id B.keys
  rings : Chains B.links B.keys B.head chains
  /-- a route of the trie is in the chain of its attributes -/
  stored : ∀ n x, B.trie.get n = some x →
    ∃ r, B.objects x = some r ∧ net r = n ∧ x ∈ chains (attributes r)
  /-- a route of a chain is in the trie -/
  chained : ∀ a, ∀ x ∈ chains a,
    ∃ r, B.objects x = some r ∧ attributes r = a ∧ B.trie.get (net r) = some x
  fresh : ∀ x r, B.objects x = some r → x < B.fresh

variable {net attributes} {n : IPNet w}

theorem empty_valid : Valid net attributes (empty : BgpTrie w α ρ) fun _ => [] where
  sorted := List.Pairwise.nil
  rings := by
    refine ⟨fun a => ?_, fun a h t hnil => ?_, fun a b x hx => ?_⟩
    · exact iff_of_false not_mem_nil (fun h => h rfl)
    · exact absurd hnil (cons_ne_nil h t).symm
    · cases hx
  stored n x hx := absurd hx (some_ne_none x).symm
  chained a x hx := absurd hx not_mem_nil
  fresh x r hr := absurd hr (some_ne_none r).symm

variable {t : List Nat} {h : Nat}

namespace Valid

variable {l : List Nat} {L' : Links Nat} {keys' : List α} {head' : α → Nat}

variable {a : α}

section
variable (hv : Valid net attributes B chains)
include hv

theorem lt_fresh (hx : x ∈ chains a) : x < B.fresh := by
  obtain ⟨r, hr, -, -⟩ := hv.chained a x hx
  exact hv.fresh x r hr

theorem content_of_get (hx : B.trie.get n = some x) :
    ∃ r, B.content n = some r ∧ B.objects x = some r ∧ net r = n ∧ x ∈ chains (attributes r) := by
  obtain ⟨r, hr, hnet, hmem⟩ := hv.stored n x hx
  refine ⟨r, ?_, hr, hnet, hmem⟩
  rw [content, hx]
  exact hr

theorem get_of_content (hr : B.content n = some r) :
    ∃ x, B.trie.get n = some x ∧ B.objects x = some r ∧ net r = n ∧ x ∈ chains (attributes r) := by
  obtain ⟨x, hx, hobj⟩ := bind_eq_some_iff.mp hr
  obtain ⟨r', hr', hnet, hmem⟩ := hv.stored n x hx
  obtain rfl : r' = r := some.inj (hr'.symm.trans hobj)
  exact ⟨x, hx, hobj, hnet, hmem⟩

/-- An address is in the trie for one net only. -/
theorem get_inj {n' : IPNet w} (hx : B.trie.get n = some x) (hx' : B.trie.get n' = some x) :
    n = n' := by
  obtain ⟨r, hr, hnet, -⟩ := hv.stored n x hx
  obtain ⟨r', hr', hnet', -⟩ := hv.stored n' x hx'
  obtain rfl : r = r' := some.inj (hr.symm.trans hr')
  exact hnet.symm.trans hnet'

/-- Nothing is held for a net exactly if the trie has no node for it. -/
theorem content_eq_none : B.content n = none ↔ B.trie.get n = none := by
  constructor
  · intro h
    cases hx : B.trie.get n with
    | none => rfl
    | some x =>
      obtain ⟨r, hr, -⟩ := hv.content_of_get hx
      exact absurd (h.symm.trans hr) (some_ne_none r).symm
  · intro h
    rw [content, h]
    rfl

/-- A route is new in the trie and in the chain of its attributes. -/
theorem put (hn : B.trie.get (net r) = none) (hsorted : OrderedSet.Sorted id keys')
    (hc : Chains L' keys' head' (update chains (attributes r) l))
    (hl : ∀ z, z ∈ l ↔ z = B.fresh + 1 ∨ z ∈ chains (attributes r)) : Valid net attributes
      ⟨B.trie.insert (net r) (B.fresh + 1), update B.objects (B.fresh + 1) (some r), L',
        keys', head', B.fresh + 2⟩ (update chains (attributes r) l) := by
  have hobj : ∀ z r', B.objects z = some r' →
      update B.objects (B.fresh + 1) (some r) z = some r' := by
    intro z r' hz
    have hlt := hv.fresh z r' hz
    rw [update_of_ne (by omega)]
    exact hz
  refine ⟨hsorted, hc, ?_, ?_, ?_⟩
  · intro n z hz
    rw [get_insert] at hz
    split_ifs at hz with hnet
    · cases hz
      refine ⟨r, update_self .., hnet.symm, ?_⟩
      rw [update_self]
      exact (hl _).mpr (.inl rfl)
    · obtain ⟨r', hr', hnet', hmem⟩ := hv.stored n z hz
      refine ⟨r', hobj z r' hr', hnet', ?_⟩
      by_cases ha : attributes r' = attributes r
      · rw [ha, update_self]
        exact (hl z).mpr (.inr (ha ▸ hmem))
      · rw [update_of_ne ha]
        exact hmem
  · intro a z hz
    by_cases hzf : z = B.fresh + 1
    · have ha : a = attributes r := by
        by_contra ha
        rw [update_of_ne ha] at hz
        have := hv.lt_fresh hz
        omega
      refine ⟨r, hzf ▸ update_self .., ha.symm, ?_⟩
      rw [get_insert, if_pos rfl, hzf]
    · have hz' : z ∈ chains a := by
        by_cases ha : a = attributes r
        · rw [ha, update_self] at hz
          exact ha ▸ ((hl z).mp hz).resolve_left hzf
        · rwa [update_of_ne ha] at hz
      obtain ⟨r', hr', ha', hget⟩ := hv.chained a z hz'
      refine ⟨r', hobj z r' hr', ha', ?_⟩
      have hne : net r' ≠ net r := fun he => by simp [he, hn] at hget
      rw [get_insert, if_neg hne]
      exact hget
  · intro z r' hz
    change z < B.fresh + 2
    by_cases he : z = B.fresh + 1
    · omega
    · have hlt := hv.fresh z r' ((update_of_ne he ..).symm.trans hz)
      omega

theorem find_cons (ha : chains a = h :: t) : B.find a = some h := by
  have hmem : a ∈ B.keys := (hv.rings.mem_keys a).mpr (by simp [ha])
  rw [find, if_pos hmem, (hv.rings.ring a h t ha).1]

theorem live (hx : x ∈ chains a) : ∃ r, B.objects x = some r := by
  obtain ⟨r, hr, -, -⟩ := hv.chained a x hx
  exact ⟨r, hr⟩

end

end Valid

/-- `insert` for attributes without a chain. -/
theorem insert_new (hfind : B.find (attributes r) = none) : B.insert net attributes r =
      .ok ⟨B.trie.insert (net r) (B.fresh + 1),
        update (update (update B.objects B.fresh (some r)) (B.fresh + 1) (some r)) B.fresh none,
        ((B.links.alone B.fresh).insertAfter B.fresh (B.fresh + 1)).unchain B.fresh,
        OrderedSet.insert id (attributes r) B.keys,
        update B.head (attributes r) (B.fresh + 1), B.fresh + 2⟩ := by
  have hr := IsRing.alone B.links B.fresh
  have hnew : B.fresh + 1 ∉ [B.fresh] := by simp
  have hr₁ := hr.insertAfter hnew
  set A := B.newAlone B.fresh r
  have h₁ : A.objects B.fresh = some r := update_self ..
  have h₂ : A.objects (A.links.next B.fresh) = some r := by
    rw [show A.links.next B.fresh = B.fresh from hr.next_head]
    exact h₁
  have h₃ : update (update B.objects B.fresh (some r)) (B.fresh + 1) (some r)
      (((B.links.alone B.fresh).insertAfter B.fresh (B.fresh + 1)).prev B.fresh) = some r := by
    rw [hr₁.prev_head]
    exact update_self ..
  have h₄ : update (update B.objects B.fresh (some r)) (B.fresh + 1) (some r)
      (((B.links.alone B.fresh).insertAfter B.fresh (B.fresh + 1)).next B.fresh) = some r := by
    rw [hr₁.next_head]
    exact update_self ..
  rw [insert, hfind]
  dsimp only
  rw [show (pure A : Except Fault _) = .ok A from rfl, ok_bind, newAfter_eq h₁ h₂, ok_bind]
  rw [unchain_eq h₃ h₄, ok_bind]
  rfl

/-- A new route does not take another one from memory. -/
theorem exists_update {o : Nat → Option ρ} {z : Nat} (h : z ≠ x → ∃ r', o z = some r') :
    ∃ r', update o x (some r) z = some r' := by
  by_cases hz : z = x
  · exact ⟨r, hz ▸ update_self ..⟩
  · rw [update_of_ne hz]
    exact h hz

/-- `insert` for attributes with a chain, whose routes can be followed. -/
theorem insert_join (hfind : B.find (attributes r) = some h) (hr : IsRing B.links h t)
    (hlive : ∀ z ∈ h :: t, z < B.fresh ∧ ∃ r, B.objects z = some r) : B.insert net attributes r =
      .ok ⟨B.trie.insert (net r) (B.fresh + 1),
        update (update (update B.objects B.fresh (some r)) (B.fresh + 1) (some r)) B.fresh none,
        ((B.links.insertAfter h B.fresh).insertAfter B.fresh (B.fresh + 1)).unchain B.fresh,
        B.keys, B.head, B.fresh + 2⟩ := by
  have hnew : B.fresh ∉ h :: t := fun hmem => Nat.lt_irrefl _ (hlive _ hmem).1
  have hr₁ : IsRing (B.links.insertAfter h B.fresh) h ([] ++ B.fresh :: t) := hr.insertAfter hnew
  have hnew' : B.fresh + 1 ∉ h :: ([] ++ B.fresh :: t) := by
    intro hmem
    rcases mem_cons.mp hmem with he | hmem
    · have := (hlive h mem_cons_self).1
      omega
    · rcases mem_cons.mp hmem with he | hmem
      · omega
      · have := (hlive _ (mem_cons_of_mem h hmem)).1
        omega
  have hr₂ := hr₁.insertAfter_mem hnew'
  obtain ⟨r₁, h₁⟩ := (hlive h mem_cons_self).2
  obtain ⟨r₂, h₂⟩ := (hlive _ hr.next_head_mem).2
  -- both new routes are in memory before they are linked
  have hall : ∀ z ∈ h :: ([] ++ B.fresh :: t), ∃ r',
      update B.objects B.fresh (some r) z = some r' := by
    intro z hz
    refine exists_update ?_
    intro hne
    simp only [nil_append, mem_cons, hne, false_or] at hz
    exact (hlive z (mem_cons.mpr hz)).2
  have hall' : ∀ z ∈ h :: ([] ++ B.fresh :: (B.fresh + 1) :: t), ∃ r',
      update (update B.objects B.fresh (some r)) (B.fresh + 1) (some r) z = some r' := by
    intro z hz
    refine exists_update ?_
    intro hne
    simp only [nil_append, mem_cons, hne, false_or] at hz
    exact hall z (mem_cons.mpr (hz.imp id mem_cons.mpr))
  have hmem₁ : B.fresh ∈ h :: ([] ++ B.fresh :: t) := mem_cons_of_mem h mem_cons_self
  have hmem₂ : B.fresh ∈ h :: ([] ++ B.fresh :: (B.fresh + 1) :: t) :=
    mem_cons_of_mem h mem_cons_self
  obtain ⟨r₃, h₃⟩ := hall _ hmem₁
  obtain ⟨r₄, h₄⟩ := hall _ (hr₁.links_mem hmem₁).1
  obtain ⟨r₅, h₅⟩ := hall' _ (hr₂.links_mem hmem₂).2
  obtain ⟨r₆, h₆⟩ := hall' _ (hr₂.links_mem hmem₂).1
  rw [insert, hfind]
  dsimp only
  rw [newAfter_eq h₁ h₂, ok_bind, newAfter_eq h₃ h₄, ok_bind]
  rw [unchain_eq h₅ h₆, ok_bind]
  rfl

namespace Valid

theorem insert (hv : Valid net attributes B chains) (hn : B.trie.get (net r) = none) :
    ∃ B' chains', B.insert net attributes r = .ok B' ∧ Valid net attributes B' chains' ∧
      B'.content = update B.content (net r) (some r) ∧
      B'.trie = B.trie.insert (net r) (B.fresh + 1) ∧
      B'.objects = update B.objects (B.fresh + 1) (some r) := by
  have hfresh : B.objects B.fresh = none := by
    cases hobj : B.objects B.fresh with
    | none => rfl
    | some r' => exact absurd (hv.fresh _ r' hobj) (Nat.lt_irrefl _)
  have hobjects : update (update (update B.objects B.fresh (some r))
      (B.fresh + 1) (some r)) B.fresh none = update B.objects (B.fresh + 1) (some r) := by
    have hne : B.fresh + 1 ≠ B.fresh := Nat.succ_ne_self _
    rw [update_comm hne, update_idem, ← hfresh, update_eq_self]
  have hcontent : ∀ keys head L, (⟨B.trie.insert (net r) (B.fresh + 1),
      update B.objects (B.fresh + 1) (some r), L, keys, head, B.fresh + 2⟩ :
        BgpTrie w α ρ).content = update B.content (net r) (some r) := by
    intro keys head L
    funext n
    rw [content, get_insert, update_apply]
    split_ifs with hnet
    · exact update_self ..
    · cases hx : B.trie.get n with
      | none => rw [hv.content_eq_none.mpr hx]; rfl
      | some x =>
        obtain ⟨r', hr', hobj, -⟩ := hv.content_of_get hx
        have := hv.fresh x r' hobj
        rw [hr', bind_some, ← hobj]
        exact update_of_ne (by omega) ..
  have h₁ : ∀ a, B.fresh ∉ chains a := fun a hmem => Nat.lt_irrefl _ (hv.lt_fresh hmem)
  have h₂ : ∀ a, B.fresh + 1 ∉ chains a := by
    intro a hmem
    have := hv.lt_fresh hmem
    omega
  cases ha : chains (attributes r) with
  | nil =>
    refine ⟨_, update chains (attributes r) [B.fresh + 1],
      insert_new (if_neg fun hk => (hv.rings.mem_keys _).mp hk ha), ?_, ?_, rfl, hobjects⟩
    · rw [hobjects]
      refine hv.put hn (hv.sorted.insert injective_id _)
        (hv.rings.putNew h₁ h₂ (Nat.succ_ne_self _)) ?_
      intro z
      rw [ha, mem_singleton]
      simp
    · rw [hobjects]
      exact hcontent ..
  | cons h t =>
    obtain ⟨-, hr⟩ := hv.rings.ring _ h t ha
    have hlive : ∀ z ∈ h :: t, z < B.fresh ∧ ∃ r, B.objects z = some r := fun z hz =>
      ⟨hv.lt_fresh (ha ▸ hz), hv.live (ha ▸ hz)⟩
    refine ⟨_, update chains (attributes r) (h :: (B.fresh + 1) :: t),
      insert_join (hv.find_cons ha) hr hlive, ?_, ?_, rfl, hobjects⟩
    · rw [hobjects]
      refine hv.put hn hv.sorted (hv.rings.putIn ha h₁ h₂ (Nat.succ_ne_self _)) ?_
      intro z
      rw [ha, mem_cons, mem_cons, mem_cons]
      exact or_left_comm
    · rw [hobjects]
      exact hcontent ..

/-- A route is gone from the trie and from the chain of its attributes. -/
theorem drop (hv : Valid net attributes B chains) (hx : B.trie.get n = some x)
    (hr : B.objects x = some r) (hsorted : OrderedSet.Sorted id keys')
    (hc : Chains L' keys' head' (update chains (attributes r) l))
    (hl : ∀ z, z ∈ l ↔ z ≠ x ∧ z ∈ chains (attributes r)) :
    Valid net attributes ⟨B.trie.erase n, B.objects, L', keys', head', B.fresh⟩
      (update chains (attributes r) l) := by
  have hmem : ∀ a z, z ∈ update chains (attributes r) l a → z ≠ x ∧ z ∈ chains a := by
    intro a z hz
    by_cases ha : a = attributes r
    · rw [ha, update_self] at hz
      exact ha ▸ (hl z).mp hz
    · rw [update_of_ne ha] at hz
      refine ⟨?_, hz⟩
      intro he
      obtain ⟨r', hr', ha', -⟩ := hv.chained a z hz
      rw [he, hr] at hr'
      exact ha (ha'.symm.trans (congrArg attributes (some.inj hr').symm))
  refine ⟨hsorted, hc, ?_, ?_, hv.fresh⟩
  · intro n' z hz
    rw [get_erase hx] at hz
    split_ifs at hz with hn
    obtain ⟨r', hr', hnet, hz'⟩ := hv.stored n' z hz
    refine ⟨r', hr', hnet, ?_⟩
    by_cases ha : attributes r' = attributes r
    · rw [ha, update_self]
      refine (hl z).mpr ⟨fun he => hn ?_, ha ▸ hz'⟩
      exact hv.get_inj (he ▸ hz) hx
    · rw [update_of_ne ha]
      exact hz'
  · intro a z hz
    obtain ⟨hne, hz'⟩ := hmem a z hz
    obtain ⟨r', hr', ha', hget⟩ := hv.chained a z hz'
    refine ⟨r', hr', ha', ?_⟩
    have hn : net r' ≠ n := fun he => hne (some.inj ((he ▸ hget).symm.trans hx))
    rw [get_erase hx, if_neg hn]
    exact hget

/-- What `erase` leaves, for the route `r` at `x`.  Its chain loses it, and if it was the only
one, the map loses the chain.  The route itself stays in memory. -/
structure Erased (net : ρ → IPNet w) (attributes : ρ → α) (B : BgpTrie w α ρ)
    (chains : α → List Nat) (n : IPNet w) (x : Nat) (r : ρ) (B' : BgpTrie w α ρ) : Prop where
  valid : Valid net attributes B'
    (Function.update chains (attributes r) ((chains (attributes r)).erase x))
  objects : B'.objects = B.objects
  trie : B'.trie = B.trie.erase n
  fresh : B'.fresh = B.fresh
  keys : B'.keys =
    if chains (attributes r) = [x] then OrderedSet.erase (attributes r) B.keys else B.keys

theorem erase (hv : Valid net attributes B chains) (hx : B.trie.get n = some x)
    (hr : B.objects x = some r) :
    ∃ B', B.erase net attributes n = .ok B' ∧ Erased net attributes B chains n x r B' := by
  obtain ⟨r', hr', hnet, hmem⟩ := hv.stored n x hx
  obtain rfl : r' = r := some.inj (hr'.symm.trans hr)
  cases ha : chains (attributes r') with
  | nil => exact absurd (ha ▸ hmem) not_mem_nil
  | cons h t =>
    obtain ⟨hh, hring⟩ := hv.rings.ring _ h t ha
    have hkey : attributes r' ∈ B.keys := (hv.rings.mem_keys _).mpr (by simp [ha])
    rw [ha] at hmem
    have hl : ∀ z, z ∈ (chains (attributes r')).erase x ↔ z ≠ x ∧ z ∈ chains (attributes r') := by
      intro z
      rw [ha]
      exact hring.nodup.mem_erase_iff
    -- the neighbours in the chain can be followed
    obtain ⟨r₁, h₁⟩ := hv.live (ha ▸ (hring.links_mem hmem).2)
    obtain ⟨r₂, h₂⟩ := hv.live (ha ▸ (hring.links_mem hmem).1)
    rw [BgpTrie.erase, hx]
    dsimp only
    rw [deref_eq hr, ok_bind, if_neg (not_not.mpr hnet), hv.find_cons ha]
    dsimp only
    by_cases hhx : h = x
    · subst hhx
      rw [if_pos rfl]
      cases t with
      | nil =>
        have hout : (chains (attributes r')).erase h = [] := by rw [ha, erase_cons_head]
        rw [if_pos (hring.next_eq_self.mpr rfl)]
        refine ⟨_, rfl, ?_, rfl, rfl, rfl, (if_pos ha).symm⟩
        refine hv.drop hx hr (hv.sorted.erase _) ?_ hl
        rw [hout]
        exact hv.rings.takeOnly
      | cons y t =>
        have hout : (chains (attributes r')).erase h = y :: t := by
          rw [ha, erase_cons_head]
        have hne : ¬ B.links.next h = h := fun he => by simpa using hring.next_eq_self.mp he
        have hnext : B.links.next h = y := hring.next_head
        have hkeys := hv.sorted.insert_of_mem hkey
        have h₁' : (B.setHead (attributes r') (B.links.next h)).objects
          ((B.setHead (attributes r') (B.links.next h)).links.prev h) = some r₁ := h₁
        rw [if_neg hne, unchain_eq h₁' h₂]
        refine ⟨_, rfl, ?_, rfl, rfl, rfl, ?_⟩
        · refine hv.drop hx hr (hv.sorted.insert injective_id _) ?_ hl
          rw [hout, hnext]
          exact hv.rings.takeHead ha
        · rw [if_neg (by simp [ha])]
          exact hkeys
    · obtain ⟨pre, post, rfl⟩ := append_of_mem ((mem_cons.mp hmem).resolve_left (Ne.symm hhx))
      have hpre : x ∉ pre := by
        intro hmem'
        have hnd := (nodup_cons.mp hring.nodup).2
        exact disjoint_of_nodup_append hnd hmem' mem_cons_self
      have hout : (chains (attributes r')).erase x = h :: (pre ++ post) := by
        rw [ha, erase_cons_tail (by simpa using hhx), erase_append_right _ hpre, erase_cons_head]
      rw [if_neg hhx, unchain_eq h₁ h₂]
      refine ⟨_, rfl, ?_, rfl, rfl, rfl, ?_⟩
      · refine hv.drop hx hr hv.sorted ?_ hl
        rw [hout]
        exact hv.rings.takeInner ha
      · rw [if_neg (by simp [ha, hhx])]

variable {B' : BgpTrie w α ρ}

/-- Only the net that was erased loses its route. -/
theorem Erased.content (hx : B.trie.get n = some x) (he : Erased net attributes B chains n x r B') :
    B'.content = update B.content n none := by
  funext n'
  rw [BgpTrie.content, he.trie, he.objects, get_erase hx, update_apply]
  split_ifs with hn
  · rfl
  · rfl

/-- The address of the route that was erased is not in the trie any more. -/
theorem Erased.gone (hv : Valid net attributes B chains) (hx : B.trie.get n = some x)
    (he : Erased net attributes B chains n x r B') (n' : IPNet w) : B'.trie.get n' ≠ some x := by
  rw [he.trie, get_erase hx]
  split_ifs with hn
  · exact (some_ne_none x).symm
  · exact fun hx' => hn (hv.get_inj hx' hx)

/-- The last reference to a route goes that is not in the trie. -/
theorem unref (hv : Valid net attributes B chains) (hgone : ∀ n, B.trie.get n ≠ some x) :
    Valid net attributes (B.unref x) chains := by
  refine ⟨hv.sorted, hv.rings, ?_, ?_, ?_⟩
  · intro n z hz
    obtain ⟨r, hr, hnet, hmem⟩ := hv.stored n z hz
    have hne : z ≠ x := fun he => hgone n (he ▸ hz)
    exact ⟨r, (update_of_ne hne ..).trans hr, hnet, hmem⟩
  · intro a z hz
    obtain ⟨r, hr, ha, hget⟩ := hv.chained a z hz
    have hne : z ≠ x := fun he => hgone _ (he ▸ hget)
    exact ⟨r, (update_of_ne hne ..).trans hr, ha, hget⟩
  · exact fun z r hz => hv.fresh z r (update_none_iff.mp hz).2

end Valid

/-! ### Runs -/

variable (net attributes) in
/-- The tries that calls can make, with the map of what was put in.  The last reference to an
erased route goes at any time. -/
inductive Reach : BgpTrie w α ρ → (IPNet w → Option ρ) → Prop
  | empty : Reach empty fun _ => none
  | insert {B B' m r} : Reach B m → m (net r) = none →
      B.insert net attributes r = .ok B' → Reach B' (update m (net r) (some r))
  | erase {B B' m n} : Reach B m → m n ≠ none →
      B.erase net attributes n = .ok B' → Reach B' (update m n none)
  | unref {B m x} : Reach B m → (∀ n, B.trie.get n ≠ some x) →
      Reach (B.unref x) m

variable {m : IPNet w → Option ρ}

theorem Reach.valid (h : Reach net attributes B m) :
    ∃ chains, Valid net attributes B chains ∧ B.content = m := by
  induction h with
  | empty => exact ⟨_, empty_valid, rfl⟩
  | insert _ hn hrun ih =>
    obtain ⟨chains, hv, rfl⟩ := ih
    obtain ⟨B', chains', hok, hv', hcontent, -⟩ := hv.insert (hv.content_eq_none.mp hn)
    cases hok.symm.trans hrun
    exact ⟨chains', hv', hcontent⟩
  | erase _ hn hrun ih =>
    obtain ⟨chains, hv, rfl⟩ := ih
    obtain ⟨r, hr⟩ := ne_none_iff_exists'.mp hn
    obtain ⟨x, hx, hobj, -⟩ := hv.get_of_content hr
    obtain ⟨B', hok, he⟩ := hv.erase hx hobj
    cases hok.symm.trans hrun
    exact ⟨_, he.valid, he.content hx⟩
  | unref _ hgone ih =>
    obtain ⟨chains, hv, rfl⟩ := ih
    exact ⟨chains, hv.unref hgone, content_unref hgone⟩

/-- **The trie and the pathmap stay in step**: no call fails, the trie is the map of what was put in
and not taken out, and the chains of the pathmap have the same routes. -/
theorem run_in_step (h : Reach net attributes B m) :
    (∀ r, m (net r) = none → ∃ B', B.insert net attributes r = .ok B') ∧
    (∀ n, m n ≠ none → ∃ B', B.erase net attributes n = .ok B') ∧
    ∃ chains, Valid net attributes B chains ∧ B.content = m := by
  obtain ⟨chains, hv, rfl⟩ := h.valid
  refine ⟨fun r hn => ?_, fun n hn => ?_, chains, hv, rfl⟩
  · obtain ⟨B', -, hok, -⟩ := hv.insert (hv.content_eq_none.mp hn)
    exact ⟨B', hok⟩
  · obtain ⟨r, hr⟩ := ne_none_iff_exists'.mp hn
    obtain ⟨x, hx, hobj, -⟩ := hv.get_of_content hr
    obtain ⟨B', hok, -⟩ := hv.erase hx hobj
    exact ⟨B', hok⟩

/-- Of two routes with the same attributes the first can be erased. -/
theorem run_in_step_once : ∃ B : BgpTrie 32 Nat (IPNet 32 × Nat),
    Reach Prod.fst Prod.snd B (update (update (fun _ => none) (.any 32) (some (.any 32, 1)))
      (.host 1) (some (.host 1, 1))) ∧ ∃ B', B.erase Prod.fst Prod.snd (.any 32) = .ok B' := by
  have h₀ : Reach Prod.fst Prod.snd (empty : BgpTrie 32 Nat (IPNet 32 × Nat)) _ := .empty
  obtain ⟨B, hB⟩ := (run_in_step h₀).1 (.any 32, 1) rfl
  have h₁ := h₀.insert rfl hB
  obtain ⟨B₂, hB₂⟩ := (run_in_step h₁).1 (.host 1, 1) rfl
  have h₂ := h₁.insert rfl hB₂
  exact ⟨B₂, h₂, (run_in_step h₂).2.1 (.any 32) (by decide)⟩

end

end BgpTrie

end Xorp.Bgp

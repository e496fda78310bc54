import TinyRedis.Proofs.Entry

/-!
# `TinyRedis.Proofs.Table.Linked`: the chains of a bucket array

`Linked mem buckets S` says that the chains of `buckets` hold exactly the entries of `S`, each in
the bucket that its hash selects. `S` is every entry for a table at rest. Inside `rehash` it is the
set of entries relinked so far, while the others still have their old links.

Three updates keep it.

* `Linked.push` links an entry in front of its chain, which is both `insert` and one round of
  `rehash`.
* `Linked.write` changes fields other than the link and the hash.
* `Linked.remove` takes an entry out of its chain.

An entry stands in one chain, the one of its slot (`Linked.split`), so a change to one chain is not
seen in another. The chains themselves are those of `TinyRedis.Lib.Chain`, over the memory of the
table.
-/

set_option autoImplicit false

namespace TinyRedis

open Lib

/-- The slot a hash selects in an array of `n` buckets. -/
def slotOf (n : Nat) (h : UInt32) : Nat := h.toNat &&& (n - 1)

/-- A slot is a bucket of the array. -/
theorem slotOf_lt {n : Nat} (h : UInt32) (hn : 0 < n) : slotOf n h < n := by
  have := Nat.and_le_right (n := h.toNat) (m := n - 1)
  unfold slotOf
  omega

/-- The chains of `buckets` hold exactly the entries of `S`, each in the bucket its hash
selects. -/
def Linked (mem : Memory) (buckets : List (Option Ptr)) (S : Ptr → Prop) : Prop :=
  ∀ i head, buckets[i]? = some head → ∃ l, Chain mem Entry.next head l ∧
    ∀ p, p ∈ l ↔ S p ∧ ∃ e, mem p = some e ∧ slotOf buckets.length e.hash = i

namespace Linked

variable {mem mem' : Memory} {buckets : List (Option Ptr)} {S T : Ptr → Prop}

/-- Empty buckets chain nothing. -/
theorem replicate (n : Nat) (mem : Memory) :
    Linked mem (List.replicate n none) (fun _ => False) := by
  intro i head hi
  obtain rfl : none = head := by
    have := List.mem_of_getElem? hi
    exact (List.eq_of_mem_replicate this).symm
  exact ⟨[], rfl, by simp⟩

/-- Two descriptions of the same set of chained entries. -/
theorem congr_set (h : Linked mem buckets S)
    (hS : ∀ p e, mem p = some e → (S p ↔ T p)) : Linked mem buckets T := by
  intro i head hi
  obtain ⟨l, hl, hmem⟩ := h i head hi
  refine ⟨l, hl, fun p => ?_⟩
  rw [hmem]
  constructor
  · rintro ⟨hp, e, he, hs⟩
    exact ⟨(hS p e he).mp hp, e, he, hs⟩
  · rintro ⟨hp, e, he, hs⟩
    exact ⟨(hS p e he).mpr hp, e, he, hs⟩

/-- Linking the entry `e` at `p` in front of its chain. -/
theorem push (h : Linked mem buckets S) {p : Ptr} {e : Entry} (hp : ¬ S p)
    (hhead : buckets[slotOf buckets.length e.hash]? = some e.next) :
    Linked (Function.update mem p (some e))
      (buckets.set (slotOf buckets.length e.hash) (some p)) (fun q => S q ∨ q = p) := by
  intro j head hj
  rw [List.length_set]
  -- The entries of bucket `j` before and after: only `p` joins, and only its own bucket.
  have hiff : ∀ q, ((S q ∨ q = p) ∧ ∃ e', Function.update mem p (some e) q = some e' ∧
        slotOf buckets.length e'.hash = j) ↔
      (q = p ∧ slotOf buckets.length e.hash = j) ∨
        (S q ∧ ∃ e', mem q = some e' ∧ slotOf buckets.length e'.hash = j) := by
    intro q
    by_cases hq : q = p
    · subst hq
      simp [hp]
    · simp [hq]
  by_cases hji : slotOf buckets.length e.hash = j
  · subst hji
    obtain ⟨l, hl, hmem⟩ := h _ _ hhead
    have hpl : p ∉ l := fun hin => hp ((hmem p).mp hin).1
    have hhead' : head = some p := by
      rw [List.getElem?_set_self (List.getElem?_eq_some_iff.mp hhead).1] at hj
      exact (Option.some.inj hj).symm
    subst hhead'
    refine ⟨p :: l, hl.push hpl rfl, fun q => ?_⟩
    rw [hiff, List.mem_cons, hmem]
    simp
  · rw [List.getElem?_set_ne hji] at hj
    obtain ⟨l, hl, hmem⟩ := h j head hj
    have hpl : p ∉ l := fun hin => hp ((hmem p).mp hin).1
    refine ⟨l, hl.update hpl _, fun q => ?_⟩
    rw [hiff, hmem]
    simp [hji]

/-- A write that keeps the link and the hash of an entry. -/
theorem write (h : Linked mem buckets S) {p : Ptr} {e e' : Entry} (he : mem p = some e)
    (hnext : e'.next = e.next) (hhash : e'.hash = e.hash) :
    Linked (Function.update mem p (some e')) buckets S := by
  intro i head hi
  obtain ⟨l, hl, hmem⟩ := h i head hi
  refine ⟨l, hl.congr fun q _ => ?_, fun q => ?_⟩
  · by_cases hq : q = p
    · subst hq
      simp [he, hnext]
    · simp [hq]
  · rw [hmem]
    by_cases hq : q = p
    · subst hq
      simp [he, hhash]
    · simp [hq]

/-- The bucket of an entry, its chain split at the entry. -/
theorem split (h : Linked mem buckets S) (hn : 0 < buckets.length) {p : Ptr} {e : Entry}
    (he : mem p = some e) (hp : S p) :
    ∃ head l₁ l₂, buckets[slotOf buckets.length e.hash]? = some head ∧
      Chain mem Entry.next head (l₁ ++ p :: l₂) ∧
      ∀ q, q ∈ l₁ ++ p :: l₂ ↔
        S q ∧ ∃ f, mem q = some f ∧
          slotOf buckets.length f.hash = slotOf buckets.length e.hash := by
  have hlt := slotOf_lt e.hash hn
  obtain ⟨l, hl, hmem⟩ := h _ _ (List.getElem?_eq_getElem hlt)
  obtain ⟨l₁, l₂, rfl⟩ := List.append_of_mem ((hmem p).mpr ⟨hp, e, he, rfl⟩)
  exact ⟨_, l₁, l₂, List.getElem?_eq_getElem hlt, hl, hmem⟩

/-- What is left of a list when one of its distinct members goes. -/
theorem mem_append_iff_of_nodup {p q : Ptr} {l₁ l₂ : List Ptr} (hnd : (l₁ ++ p :: l₂).Nodup) :
    q ∈ l₁ ++ l₂ ↔ q ∈ l₁ ++ p :: l₂ ∧ q ≠ p := by
  have hperm : (l₁ ++ p :: l₂).Perm (p :: (l₁ ++ l₂)) := List.perm_middle
  have hnd' := hperm.nodup_iff.mp hnd
  rw [hperm.mem_iff, List.mem_cons]
  constructor
  · intro hq
    exact ⟨Or.inr hq, fun heq => (List.nodup_cons.mp hnd').1 (heq ▸ hq)⟩
  · rintro ⟨rfl | hq, hne⟩
    · exact absurd rfl hne
    · exact hq

/-- Taking the entry `p` out of its chain: `mem'` and `head'` chain the rest of its bucket, the
other entries keep their links and hashes. -/
theorem remove (h : Linked mem buckets S) {p : Ptr} {head' : Option Ptr} {l₁ l₂ : List Ptr}
    {i : Nat} (hl : ∀ q, q ∈ l₁ ++ p :: l₂ ↔
      S q ∧ ∃ f, mem q = some f ∧ slotOf buckets.length f.hash = i)
    (hnd : (l₁ ++ p :: l₂).Nodup) (hi : i < buckets.length)
    (hchain : Chain mem' Entry.next head' (l₁ ++ l₂))
    (hlink : ∀ q ∉ l₁ ++ p :: l₂, mem' q = mem q)
    (hhash : ∀ q ≠ p, (mem' q).map Entry.hash = (mem q).map Entry.hash) :
    Linked mem' (buckets.set i head') (fun q => S q ∧ q ≠ p) := by
  intro j head hj
  rw [List.length_set]
  -- The entries of bucket `j` are those before, less `p`.
  have hiff : ∀ q, ((S q ∧ q ≠ p) ∧ ∃ f, mem' q = some f ∧ slotOf buckets.length f.hash = j) ↔
      (S q ∧ ∃ f, mem q = some f ∧ slotOf buckets.length f.hash = j) ∧ q ≠ p := by
    intro q
    by_cases hq : q = p
    · simp [hq]
    · have hqh := hhash q hq
      have : (∃ f, mem' q = some f ∧ slotOf buckets.length f.hash = j) ↔
          ∃ f, mem q = some f ∧ slotOf buckets.length f.hash = j := by
        cases hm' : mem' q <;> cases hm : mem q <;> simp_all
      rw [this]
      tauto
  by_cases hji : i = j
  · subst hji
    rw [List.getElem?_set_self hi] at hj
    cases hj
    exact ⟨l₁ ++ l₂, hchain, fun q => by rw [hiff, mem_append_iff_of_nodup hnd, hl]⟩
  · rw [List.getElem?_set_ne hji] at hj
    obtain ⟨l, hlc, hlm⟩ := h j head hj
    -- A chain of another bucket shares no entry with bucket `i`.
    have hout : ∀ q ∈ l, q ∉ l₁ ++ p :: l₂ := by
      intro q hq hqi
      obtain ⟨-, f, hf, hs⟩ := (hlm q).mp hq
      obtain ⟨-, f', hf', hs'⟩ := (hl q).mp hqi
      rw [hf] at hf'
      cases hf'
      exact hji (hs'.symm.trans hs)
    refine ⟨l, hlc.congr fun q hq => by rw [hlink q (hout q hq)], fun q => ?_⟩
    rw [hiff, hlm]
    constructor
    · intro hq
      refine ⟨hq, fun heq => hout q ((hlm q).mpr hq) ?_⟩
      simp [heq]
    · exact fun hq => hq.1

end Linked

end TinyRedis

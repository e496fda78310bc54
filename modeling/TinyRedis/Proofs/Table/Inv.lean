import TinyRedis.Proofs.Table.Linked

/-!
# `TinyRedis.Proofs.Table.Inv`: the table invariant, and `find`

`Table.Inv` is the representation invariant: a power-of-two bucket array, chains that hold exactly
the outstanding blocks, each in the bucket of its hash, a hash that is the key's own, and no key
twice.

Two views abstract a table. `contents` reads a block as a key and an `Item`, and forgets the links
and the buffer layout. `view` reads the table as a dictionary from keys to items. The operations are
specified as updates of `contents`, and `view` follows.

* `Base`: the invariant without the load of the buckets, which growth establishes again.
* `Base.contents_eq`, `mem_eq`, `contents_inj`: what is in a block, and that a key is in one only.
* `find_eq`: the walk over a chain finds the block of a key.
* `view_eq_some_iff`, `view_eq_none_iff`: the dictionary in terms of blocks.
* `find_cases`: the two answers of `find`.

`find` compares hashes before keys. A hash that is the key's own makes that harmless: two blocks
with different hashes have different keys (`hit_eq`).
-/

set_option autoImplicit false

namespace TinyRedis

open Lib

/-- What the store keeps under a key. -/
structure Item where
  value : Bytes
  expiresAtMs : Int64
  lruClock : UInt32
deriving DecidableEq, Repr

/-- The key and the item an entry stores. -/
def Entry.keyItem (e : Entry) : Option (Bytes × Item) := do
  return (← e.key, { value := ← e.value, expiresAtMs := e.expiresAtMs, lruClock := e.lruClock })

/-- An entry read as a key and an item. -/
theorem Entry.Holds.keyItem {e : Entry} {k v : Bytes} (h : e.Holds k v) :
    e.keyItem = some (k, ⟨v, e.expiresAtMs, e.lruClock⟩) := by
  simp [Entry.keyItem, h.key, h.value]

variable [EntryPool]

namespace Table

/-- The representation invariant of a table, but for its load. `insert` leaves the load open
until `maybeGrow` has run. -/
structure Base (t : Table) : Prop where
  pow2 : ∃ k, t.bucketCount = 2 ^ k
  minBuckets : kMinBuckets ≤ t.bucketCount
  outstanding : ∀ p, p ∈ EntryPool.outstanding t.pool ↔ (t.mem p).isSome
  count : t.liveCount = (EntryPool.outstanding t.pool).card
  linked : Linked t.mem t.buckets (fun _ => True)
  stored : ∀ p e, t.mem p = some e → ∃ k v, e.Holds k v ∧ e.hash = hash32 t.hashSeed k
  unique : ∀ p q e f k, t.mem p = some e → t.mem q = some f → e.key = some k →
    f.key = some k → p = q

/-- The representation invariant of a table. -/
structure Inv (t : Table) : Prop extends Base t where
  load : t.liveCount ≤ t.bucketCount

/-- The key and the item in the block `p`. -/
def contents (t : Table) (p : Ptr) : Option (Bytes × Item) := (t.mem p).bind Entry.keyItem

/-- The item the table finds under `key`. -/
def view (t : Table) (key : Bytes) : Option Item := do
  let p ← (t.find key).join
  (t.contents p).map Prod.snd

namespace Base

variable {t : Table}

/-- There is a bucket. -/
theorem bucketCount_pos (h : t.Base) : 0 < t.buckets.length := by
  have := h.minBuckets
  simp only [kMinBuckets, bucketCount] at this
  omega

/-- A table never holds more than the pool. -/
theorem liveCount_le (h : t.Base) : t.liveCount ≤ kPoolCapacity := by
  rw [h.count]
  exact EntryPool.outstanding_card_le _

/-- A chain is never longer than the pool. -/
theorem chain_length_le (h : t.Base) {head : Option Ptr} {l : List Ptr}
    (hl : Chain t.mem Entry.next head l) : l.length ≤ kPoolCapacity := by
  have hsub : l.toFinset ⊆ EntryPool.outstanding t.pool := by
    intro p hp
    exact (h.outstanding p).mpr (hl.isSome_of_mem (List.mem_toFinset.mp hp))
  calc l.length = l.toFinset.card := (List.toFinset_card_of_nodup hl.nodup).symm
    _ ≤ (EntryPool.outstanding t.pool).card := Finset.card_le_card hsub
    _ ≤ kPoolCapacity := EntryPool.outstanding_card_le _

/-- What a block stores, read off its entry. -/
theorem contents_eq (h : t.Base) {p : Ptr} {e : Entry} (he : t.mem p = some e) :
    ∃ k v, e.Holds k v ∧ e.hash = hash32 t.hashSeed k ∧
      t.contents p = some (k, ⟨v, e.expiresAtMs, e.lruClock⟩) := by
  obtain ⟨k, v, hkv, hh⟩ := h.stored p e he
  exact ⟨k, v, hkv, hh, by simp [contents, he, hkv.keyItem]⟩

/-- The entry behind a stored item. -/
theorem mem_eq (h : t.Base) {p : Ptr} {k : Bytes} {it : Item}
    (hc : t.contents p = some (k, it)) :
    ∃ e, t.mem p = some e ∧ e.Holds k it.value ∧ e.hash = hash32 t.hashSeed k ∧
      e.expiresAtMs = it.expiresAtMs ∧ e.lruClock = it.lruClock := by
  cases he : t.mem p with
  | none => simp [contents, he] at hc
  | some e =>
    obtain ⟨k', v, hkv, hh, hc'⟩ := h.contents_eq he
    rw [hc] at hc'
    cases hc'
    exact ⟨e, rfl, hkv, hh, rfl, rfl⟩

/-- The outstanding blocks are those that store something. -/
theorem mem_outstanding_iff (h : t.Base) {p : Ptr} :
    p ∈ EntryPool.outstanding t.pool ↔ ∃ k it, t.contents p = some (k, it) := by
  rw [h.outstanding, Option.isSome_iff_exists]
  constructor
  · rintro ⟨e, he⟩
    obtain ⟨k, v, -, -, hc⟩ := h.contents_eq he
    exact ⟨k, _, hc⟩
  · rintro ⟨k, it, hc⟩
    obtain ⟨e, he, -⟩ := h.mem_eq hc
    exact ⟨e, he⟩

/-- No key is stored twice. -/
theorem contents_inj (h : t.Base) {p q : Ptr} {k : Bytes} {it it' : Item}
    (hp : t.contents p = some (k, it)) (hq : t.contents q = some (k, it')) : p = q := by
  obtain ⟨e, he, hek, -⟩ := h.mem_eq hp
  obtain ⟨f, hf, hfk, -⟩ := h.mem_eq hq
  exact h.unique p q e f k he hf hek.key hfk.key

end Base

omit [EntryPool] in
/-- The test of `find` on a stored entry compares the keys. -/
theorem hit_eq {e : Entry} {k v key : Bytes} {seed : UInt64} (hkv : e.Holds k v)
    (hh : e.hash = hash32 seed k) : hit (hash32 seed key) key e = some (decide (k = key)) := by
  unfold hit
  by_cases hk : k = key
  · subst hk
    simp [hh, hkv.keyLen, hkv.key]
  · split
    · simp [hkv.key]
    · simp [hk]

/-- `find` returns the block that stores the key, and null when there is none. -/
theorem find_eq {t : Table} (h : t.Base) (key : Bytes) :
    ∃ r, t.find key = some r ∧ ∀ p, r = some p ↔ ∃ it, t.contents p = some (key, it) := by
  have hlt := slotOf_lt (hash32 t.hashSeed key) h.bucketCount_pos
  have hhead : t.buckets[t.bucketOf (hash32 t.hashSeed key)]? = some _ :=
    List.getElem?_eq_getElem hlt
  obtain ⟨l, hl, hmem⟩ := h.linked _ _ hhead
  rw [find, hhead]
  -- The blocks that store the key are among those still to visit.
  refine walk_rule (fun todo r => r = none ∧ ∀ p it, t.contents p = some (key, it) → p ∈ todo)
    (fun r => ∀ p, r = some p ↔ ∃ it, t.contents p = some (key, it)) ?_ ?_
    l kPoolCapacity _ none (h.chain_length_le hl) hl ⟨rfl, fun p it hp => ?_⟩
  · rintro p todo r e ⟨-, htodo⟩ he hchain -
    obtain ⟨k, v, hkv, hh, hc⟩ := h.contents_eq he
    simp only [hit_eq hkv hh, Option.bind_eq_bind, Option.bind_some]
    by_cases hk : k = key
    · subst hk
      refine ⟨.done (some p), by simp, fun q => ?_⟩
      rw [Option.some.injEq]
      constructor
      · rintro rfl
        exact ⟨_, hc⟩
      · rintro ⟨it, hq⟩
        exact h.contents_inj hc hq
    · refine ⟨.yield none, by simp [hk], ⟨rfl, fun q it hq => ?_⟩, hchain⟩
      rcases List.mem_cons.mp (htodo q it hq) with rfl | hin
      · rw [hc] at hq
        cases hq
        exact absurd rfl hk
      · exact hin
  · rintro r ⟨rfl, hnone⟩ p
    constructor
    · simp
    · rintro ⟨it, hp⟩
      exact absurd (hnone p it hp) (by simp)
  · obtain ⟨e, he, -, hh, -⟩ := h.mem_eq hp
    exact (hmem p).mpr ⟨trivial, e, he, by rw [hh]; rfl⟩

/-- The dictionary view, through the blocks. -/
theorem view_eq_some_iff {t : Table} (h : t.Base) {key : Bytes} {it : Item} :
    t.view key = some it ↔ ∃ p, t.contents p = some (key, it) := by
  obtain ⟨r, hr, hp⟩ := t.find_eq h key
  constructor
  · intro hv
    simp only [view, hr, Option.join_some, Option.bind_eq_bind, Option.bind_eq_some_iff,
      Option.map_eq_some_iff, Prod.exists] at hv
    obtain ⟨p, hrp, k, it', hc, rfl⟩ := hv
    obtain ⟨it'', hc'⟩ := (hp p).mp hrp
    rw [hc] at hc'
    cases hc'
    exact ⟨p, hc⟩
  · rintro ⟨p, hc⟩
    have hrp := (hp p).mpr ⟨it, hc⟩
    simp [view, hr, hrp, hc]

/-- A key is not in the dictionary when no block has it. -/
theorem view_eq_none_iff {t : Table} (h : t.Base) {key : Bytes} :
    t.view key = none ↔ ∀ p it, t.contents p ≠ some (key, it) := by
  rw [Option.eq_none_iff_forall_ne_some]
  constructor
  · intro hv p it hc
    exact hv it ((view_eq_some_iff h).mpr ⟨p, hc⟩)
  · intro hc it hv
    obtain ⟨p, hp⟩ := (view_eq_some_iff h).mp hv
    exact hc p it hp

/-- What `find` returns, by the dictionary view. -/
theorem find_cases {t : Table} (h : t.Base) (key : Bytes) :
    (t.find key = some none ∧ t.view key = none) ∨
      ∃ p it, t.find key = some (some p) ∧ t.view key = some it ∧
        t.contents p = some (key, it) := by
  obtain ⟨r, hr, hp⟩ := t.find_eq h key
  cases r with
  | none =>
    refine Or.inl ⟨hr, (view_eq_none_iff h).mpr fun p it hc => ?_⟩
    exact absurd ((hp p).mpr ⟨it, hc⟩) (by simp)
  | some p =>
    obtain ⟨it, hc⟩ := (hp p).mp rfl
    exact Or.inr ⟨p, it, hr, (view_eq_some_iff h).mpr ⟨p, hc⟩, hc⟩

end Table

end TinyRedis

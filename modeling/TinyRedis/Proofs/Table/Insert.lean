import TinyRedis.Lib.Run
import TinyRedis.Proofs.Table.Inv

/-!
# `TinyRedis.Proofs.Table.Insert`: construction, growth and `insert`

`rehash` walks the old chains and pushes each entry in front of its new chain. The proof runs over
the buckets and, inside one, over its chain: the entries behind the walk are linked in the new
array, the entries ahead still have the links of the old one (`RehashInv`). Only the links change
(`SameData`), so the contents stay.

`insert_spec` is the specification of `insert`: a null pointer and an unchanged table when the pool
is exhausted, and otherwise a fresh block that stores the pair. The table doubles its buckets
exactly when the new count passes the old bucket count.

* `relink_step`, `relink_chain`, `rehash_spec`: one entry, one chain, all chains.
* `nextPow2_spec`, `new_spec`: the table that a number of buckets gives.
* `maybeGrow_spec`: growth, with what stays the same.
* `Base.link`: a new block in front of its chain.

The walk reads the link of an entry before it is overwritten. That is the order of the source, and
with the other one a chain would be lost; `relink_step` needs the old link for the rest of the
chain.
-/

set_option autoImplicit false

namespace TinyRedis

open Lib

/-- An entry without its link. -/
def Entry.unlinked (e : Entry) : Entry := { e with next := none }

/-- The two memories differ in the links only. -/
def SameData (mem mem' : Memory) : Prop :=
  ∀ q, (mem' q).map Entry.unlinked = (mem q).map Entry.unlinked

namespace SameData

variable {mem mem' mem'' : Memory}

/-- A memory has the same data as itself. -/
theorem refl (mem : Memory) : SameData mem mem := fun _ => rfl

/-- One change of links after another. -/
theorem trans (h : SameData mem mem') (h' : SameData mem' mem'') : SameData mem mem'' :=
  fun q => (h' q).trans (h q)

/-- The entry of the other memory, link apart. -/
theorem exists_of_some (h : SameData mem mem') {q : Ptr} {e' : Entry} (he : mem' q = some e') :
    ∃ e, mem q = some e ∧ e'.unlinked = e.unlinked := by
  have hq := h q
  rw [he, Option.map_some, eq_comm, Option.map_eq_some_iff] at hq
  obtain ⟨e, he, heq⟩ := hq
  exact ⟨e, he, heq.symm⟩

/-- Writing a link. -/
theorem update (mem : Memory) {p : Ptr} {e : Entry} (he : mem p = some e) (q : Option Ptr) :
    SameData mem (Function.update mem p (some { e with next := q })) := by
  intro r
  by_cases hr : r = p
  · subst hr
    simp [he, Entry.unlinked]
  · simp [hr]

end SameData

/-- The hash of an entry does not depend on its link. -/
theorem Entry.hash_of_unlinked {e e' : Entry} (h : e'.unlinked = e.unlinked) :
    e'.hash = e.hash := by
  show e'.unlinked.hash = e.unlinked.hash
  rw [h]

/-- The key of an entry does not depend on its link. -/
theorem Entry.key_of_unlinked {e e' : Entry} (h : e'.unlinked = e.unlinked) :
    e'.key = e.key := by
  show e'.unlinked.key = e.unlinked.key
  rw [h]

/-- The item of an entry does not depend on its link. -/
theorem Entry.keyItem_of_unlinked {e e' : Entry} (h : e'.unlinked = e.unlinked) :
    e'.keyItem = e.keyItem := by
  show e'.unlinked.keyItem = e.unlinked.keyItem
  rw [h]

/-- What an entry holds does not depend on its link. -/
theorem Entry.Holds.of_unlinked {e e' : Entry} {k v : Bytes} (hkv : e.Holds k v)
    (h : e'.unlinked = e.unlinked) : e'.Holds k v := by
  refine hkv.congr ?_ ?_ ?_
  · show e'.unlinked.keyLen = e.unlinked.keyLen
    rw [h]
  · show e'.unlinked.valLen = e.unlinked.valLen
    rw [h]
  · show e'.unlinked.payload = e.unlinked.payload
    rw [h]

variable [EntryPool]

namespace Table

/-- Tables that differ in the links have the same contents. -/
theorem contents_of_sameData {t t' : Table} (h : SameData t.mem t'.mem) :
    t'.contents = t.contents := by
  funext p
  have hp := h p
  unfold contents
  cases he' : t'.mem p with
  | none =>
    rw [he', Option.map_none, eq_comm, Option.map_eq_none_iff] at hp
    rw [hp]
  | some e' =>
    obtain ⟨e, he, heq⟩ := h.exists_of_some he'
    rw [he]
    exact Entry.keyItem_of_unlinked heq

/-! ### Growth -/

/-- The state of `rehash` between two rounds. `S` is the set of entries relinked so far, and
the others have the links of the old memory. -/
structure RehashInv (mem : Memory) (n : Nat) (S : Ptr → Prop)
    (s : Memory × List (Option Ptr)) : Prop where
  length : s.2.length = n
  data : SameData mem s.1
  linked : Linked s.1 s.2 S
  ahead : ∀ q e, mem q = some e → ¬ S q → s.1 q = some e

omit [EntryPool] in
/-- One round: the entry `p` joins the relinked ones. -/
theorem relink_step {mem : Memory} {n : Nat} {S : Ptr → Prop} {s : Memory × List (Option Ptr)}
    (h : RehashInv mem n S s) (hn : 0 < n) {p : Ptr} {e : Entry} (hp : ¬ S p)
    (he : s.1 p = some e) :
    ∃ s', relink (n - 1) p e s = some (.yield s') ∧
      RehashInv mem n (fun q => S q ∨ q = p) s' ∧ ∀ q ≠ p, s'.1 q = s.1 q := by
  have hlt : slotOf s.2.length e.hash < s.2.length := slotOf_lt _ (by rw [h.length]; exact hn)
  have hslot : s.2[e.hash.toNat &&& (n - 1)]? = some s.2[slotOf s.2.length e.hash] := by
    rw [← List.getElem?_eq_getElem hlt, slotOf, h.length]
  refine ⟨_, by rw [relink, hslot]; rfl, ⟨?_, ?_, ?_, ?_⟩, ?_⟩
  · rw [List.length_set, h.length]
  · exact h.data.trans (SameData.update s.1 he _)
  · have hpush := h.linked.push (p := p) (e := { e with next := s.2[slotOf s.2.length e.hash] })
      hp (List.getElem?_eq_getElem hlt)
    simpa only [slotOf, h.length] using hpush
  · intro q f hq hS
    rw [not_or] at hS
    exact (Function.update_of_ne hS.2 _ _).trans (h.ahead q f hq hS.1)
  · intro q hq
    exact Function.update_of_ne hq _ _

/-- The loop over one chain relinks its entries. -/
theorem relink_chain {mem : Memory} {n : Nat} {S : Ptr → Prop} {s : Memory × List (Option Ptr)}
    (h : RehashInv mem n S s) (hn : 0 < n) {head : Option Ptr} {l : List Ptr}
    (hl : Chain mem Entry.next head l) (hfuel : l.length ≤ kPoolCapacity)
    (hS : ∀ p ∈ l, ¬ S p) :
    ∃ s', walk (fun s : Memory × List (Option Ptr) => s.1) Entry.next (relink (n - 1))
        kPoolCapacity head s = some s' ∧ RehashInv mem n (fun q => S q ∨ q ∈ l) s' := by
  -- The entries of the chain still have their old links, so it is a chain of `s` as well.
  have hchain : Chain s.1 Entry.next head l := by
    refine hl.congr fun q hq => ?_
    obtain ⟨e, he⟩ := Option.isSome_iff_exists.mp (hl.isSome_of_mem hq)
    rw [he, h.ahead q e he (hS q hq)]
  refine walk_rule (fun todo s => (∀ p ∈ todo, p ∈ l) ∧
      RehashInv mem n (fun q => S q ∨ q ∈ l ∧ q ∉ todo) s) _ ?_ ?_ l kPoolCapacity head s
    hfuel hchain ⟨fun p hp => hp, ?_⟩
  · rintro p todo s e ⟨hsub, hinv⟩ he hrest hp
    have hpl := hsub p (by simp)
    obtain ⟨s', hs', hinv', hkeep⟩ := relink_step hinv hn (p := p)
      (by simp [hS p hpl]) he
    refine ⟨.yield s', hs', ⟨fun q hq => hsub q (by simp [hq]), ?_⟩, ?_⟩
    · have hset : (fun q => (S q ∨ q ∈ l ∧ q ∉ p :: todo) ∨ q = p)
          = fun q => S q ∨ q ∈ l ∧ q ∉ todo := by
        funext q
        by_cases hq : q = p
        · subst hq
          simp [hpl, hp]
        · simp [hq]
      exact hset ▸ hinv'
    · refine hrest.congr fun q hq => ?_
      exact congrArg (Option.map Entry.next) (hkeep q fun heq => hp (heq ▸ hq))
  · rintro s ⟨-, hinv⟩
    simpa using hinv
  · have hset : (fun q => S q ∨ q ∈ l ∧ q ∉ l) = S := by
      funext q
      simp
    rw [hset]
    exact h

/-- The entries of the buckets before `i`, with those of bucket `i` added. -/
theorem slot_lt_succ {t : Table} {l : List Ptr} {done : List (Option Ptr)} {head : Option Ptr}
    (hmem : ∀ p, p ∈ l ↔ True ∧
      ∃ e, t.mem p = some e ∧ slotOf t.buckets.length e.hash = done.length) :
    (fun q => (∃ e, t.mem q = some e ∧ slotOf t.buckets.length e.hash < done.length) ∨ q ∈ l)
      = fun q => ∃ e, t.mem q = some e ∧
        slotOf t.buckets.length e.hash < (done ++ [head]).length := by
  funext q
  rw [hmem, eq_iff_iff]
  cases hq : t.mem q with
  | none => simp
  | some e =>
    simp only [Option.some.injEq, exists_eq_left', List.length_append, List.length_singleton,
      true_and]
    omega

/-- `rehash` links every entry into the new array and changes nothing but links. -/
theorem rehash_spec {t : Table} (hlinked : Linked t.mem t.buckets (fun _ => True))
    (hlen : ∀ head l, Chain t.mem Entry.next head l → l.length ≤ kPoolCapacity)
    (hb : 0 < t.buckets.length) {n : Nat} (hn : 0 < n) :
    ∃ t', t.rehash n = some t' ∧ t'.buckets.length = n ∧
      Linked t'.mem t'.buckets (fun _ => True) ∧ SameData t.mem t'.mem ∧
      t'.pool = t.pool ∧ t'.liveCount = t.liveCount ∧ t'.hashSeed = t.hashSeed := by
  -- After the first `j` buckets, the entries of those buckets are relinked.
  obtain ⟨s, hs, hinv⟩ := foldlM_rule
    (f := fun s head => walk (fun s : Memory × List (Option Ptr) => s.1) Entry.next
      (relink (n - 1)) kPoolCapacity head s)
    (fun done s => RehashInv t.mem n
      (fun q => ∃ e, t.mem q = some e ∧ slotOf t.buckets.length e.hash < done.length) s)
    (l := t.buckets) (s := (t.mem, List.replicate n none))
    (fun done head rest s hsplit h => by
      have hi : t.buckets[done.length]? = some head := by simp [hsplit]
      obtain ⟨l, hl, hmem⟩ := hlinked _ _ hi
      obtain ⟨s', hs', h'⟩ := relink_chain h hn hl (hlen _ _ hl) (by
        rintro p hp ⟨e, he, hlt⟩
        obtain ⟨-, e', he', heq⟩ := (hmem p).mp hp
        rw [he] at he'
        cases he'
        omega)
      exact ⟨s', hs', slot_lt_succ hmem ▸ h'⟩)
    ⟨List.length_replicate, SameData.refl _,
      (Linked.replicate n t.mem).congr_set (by simp), fun q e he _ => he⟩
  refine ⟨{ t with buckets := s.2, mem := s.1 }, ?_, hinv.length, ?_, hinv.data, rfl, rfl, rfl⟩
  · rw [rehash]
    simp only [hs, Option.bind_eq_bind, Option.bind_some, Option.pure_def]
  · refine hinv.linked.congr_set fun p e he => ?_
    obtain ⟨e', he', -⟩ := hinv.data.exists_of_some he
    simp [he', slotOf_lt e'.hash hb]

/-! ### Construction and `insert` -/

omit [EntryPool] in
/-- `bitCeil` rounds up to a power of two. -/
theorem nextPow2_spec {n m : Nat} (h : nextPow2 n = some m) :
    (∃ k, m = 2 ^ k) ∧ n ≤ m ∧ m ≤ 2 ^ 63 := by
  unfold nextPow2 bitCeil at h
  split at h
  · cases h
    exact ⟨⟨0, rfl⟩, by omega, by omega⟩
  · split at h
    · cases h
      exact ⟨⟨0, rfl⟩, by omega, by omega⟩
    · split at h
      · next hn _ =>
        cases h
        have hlt := Nat.lt_log2_self (n := n - 1)
        have hlog : Nat.log2 (n - 1) < 63 := (Nat.log2_lt (by omega)).mpr (by omega)
        exact ⟨⟨_, rfl⟩, by omega, Nat.pow_le_pow_right (by decide) hlog⟩
      · cases h

omit [EntryPool] in
/-- Up to `2 ^ 63` there is a next power of two. -/
theorem nextPow2_isSome {n : Nat} (h : n ≤ 2 ^ 63) : ∃ m, nextPow2 n = some m := by
  unfold nextPow2 bitCeil
  split
  · exact ⟨1, rfl⟩
  · split
    · exact ⟨1, rfl⟩
    · exact ⟨_, rfl⟩

/-- A new table is empty, and its bucket count is a power of two at or above the one asked
for, within `size_t`. -/
theorem new_spec {initialBuckets : Nat} {seed : UInt64} {t : Table}
    (h : Table.new initialBuckets seed = some t) :
    t.Inv ∧ (∀ p, t.contents p = none) ∧ t.liveCount = 0 ∧ t.hashSeed = seed ∧
      initialBuckets ≤ t.bucketCount ∧ t.bucketCount ≤ 2 ^ 63 := by
  simp only [Table.new, Option.bind_eq_bind, Option.bind_eq_some_iff, Option.pure_def,
    Option.some.injEq] at h
  obtain ⟨m, hm, rfl⟩ := h
  obtain ⟨⟨k, rfl⟩, hle, hmax⟩ := nextPow2_spec hm
  refine ⟨⟨⟨?_, ?_, ?_, ?_, ?_, ?_, ?_⟩, Nat.zero_le _⟩, fun p => rfl, rfl, rfl, ?_, ?_⟩
  · simp only [bucketCount, List.length_replicate, kMinBuckets]
    rcases Nat.le_total 4 (2 ^ k) with h4 | h4
    · exact ⟨k, by omega⟩
    · exact ⟨2, by omega⟩
  · simp only [bucketCount, List.length_replicate]
    omega
  · simp [EntryPool.outstanding_empty]
  · simp [EntryPool.outstanding_empty]
  · exact (Linked.replicate _ _).congr_set (by simp)
  · simp
  · simp
  · simp only [bucketCount, List.length_replicate]
    omega
  · simp only [bucketCount, List.length_replicate, kMinBuckets]
    omega

/-- A change of links carries the invariant over, once the chains are right. -/
theorem Base.of_sameData {t t' : Table} (h : t.Base) (hdata : SameData t.mem t'.mem)
    (hpool : t'.pool = t.pool) (hlive : t'.liveCount = t.liveCount)
    (hseed : t'.hashSeed = t.hashSeed) (hpow2 : ∃ k, t'.bucketCount = 2 ^ k)
    (hmin : kMinBuckets ≤ t'.bucketCount)
    (hlinked : Linked t'.mem t'.buckets (fun _ => True)) : t'.Base := by
  refine ⟨hpow2, hmin, fun p => ?_, by rw [hlive, hpool, h.count], hlinked,
    fun p e' he' => ?_, fun p q e' f' k he' hf' hek hfk => ?_⟩
  · rw [hpool, h.outstanding]
    have hp := congrArg Option.isSome (hdata p)
    simp only [Option.isSome_map] at hp
    rw [hp]
  · obtain ⟨e, he, heq⟩ := hdata.exists_of_some he'
    obtain ⟨k, v, hkv, hh⟩ := h.stored p e he
    exact ⟨k, v, hkv.of_unlinked heq, by rw [Entry.hash_of_unlinked heq, hh, hseed]⟩
  · obtain ⟨e, he, heq⟩ := hdata.exists_of_some he'
    obtain ⟨f, hf, hfeq⟩ := hdata.exists_of_some hf'
    exact h.unique p q e f k he hf (by rw [← Entry.key_of_unlinked heq, hek])
      (by rw [← Entry.key_of_unlinked hfeq, hfk])

/-- `maybeGrow` restores the load bound after one insertion, and keeps everything but the
links and the bucket array. -/
theorem maybeGrow_spec {t : Table} (h : t.Base) (hload : t.liveCount ≤ t.bucketCount + 1) :
    ∃ t', t.maybeGrow = some t' ∧ t'.Inv ∧ t'.contents = t.contents ∧
      t'.liveCount = t.liveCount ∧ t'.hashSeed = t.hashSeed ∧
      t'.bucketCount = if t.bucketCount < t.liveCount then t.bucketCount * 2
        else t.bucketCount := by
  have hpos : 0 < t.bucketCount := h.bucketCount_pos
  unfold maybeGrow
  split
  · next hgt =>
    obtain ⟨t', ht', hlen, hlinked, hdata, hpool, hlive, hseed⟩ := rehash_spec h.linked
      (fun _ _ hl => h.chain_length_le hl) hpos (n := t.bucketCount * 2) (by omega)
    have hbc : t'.bucketCount = t.bucketCount * 2 := hlen
    have hmin := h.minBuckets
    obtain ⟨k, hk⟩ := h.pow2
    refine ⟨t', ht', ⟨h.of_sameData hdata hpool hlive hseed ?_ (by omega) hlinked, by omega⟩,
      contents_of_sameData hdata, hlive, hseed, ?_⟩
    · exact ⟨k + 1, by rw [hbc, hk, Nat.pow_succ]⟩
    · exact hbc
  · next hle =>
    exact ⟨t, rfl, ⟨h, by omega⟩, rfl, rfl, rfl, rfl⟩

/-- No block stores a key that is not found. -/
theorem Base.key_ne_of_view_eq_none {t : Table} (h : t.Base) {key : Bytes}
    (habsent : t.view key = none) : ∀ q f, t.mem q = some f → f.key ≠ some key := by
  intro q f hf hfk
  obtain ⟨k, v, hkv, -, hc⟩ := h.contents_eq hf
  rw [hkv.key] at hfk
  cases hfk
  exact (view_eq_none_iff h).mp habsent q _ hc

/-- Linking a fresh block that stores an absent key in front of its chain. -/
theorem Base.link {t : Table} (h : t.Base) {p : Ptr} {pool : EntryPool.Pool} {e : Entry}
    {key value : Bytes} (halloc : EntryPool.tryAllocate t.pool = some (p, pool))
    (hholds : e.Holds key value) (hhash : e.hash = hash32 t.hashSeed key)
    (hhead : t.buckets[t.bucketOf e.hash]? = some e.next) (habsent : t.view key = none) :
    let t' := { t with
      pool, mem := Function.update t.mem p (some e),
      buckets := t.buckets.set (t.bucketOf e.hash) (some p), liveCount := t.liveCount + 1 }
    t'.Base ∧ t.contents p = none ∧
      t'.contents = Function.update t.contents p
        (some (key, ⟨value, e.expiresAtMs, e.lruClock⟩)) := by
  intro t'
  obtain ⟨hfresh, hpool⟩ := EntryPool.tryAllocate_some halloc
  -- The block was not outstanding, so nothing was stored in it.
  have hmem : t.mem p = none := by
    rw [h.outstanding, Option.not_isSome_iff_eq_none] at hfresh
    exact hfresh
  have hbc : t'.bucketCount = t.bucketCount := by simp [t', bucketCount]
  have hother := h.key_ne_of_view_eq_none habsent
  refine ⟨⟨?_, ?_, fun q => ?_, ?_, ?_, fun q f hf => ?_, fun q r f g k hf hg hfk hgk => ?_⟩,
    by simp [contents, hmem], ?_⟩
  · rw [hbc]
    exact h.pow2
  · rw [hbc]
    exact h.minBuckets
  · rw [show EntryPool.outstanding t'.pool = EntryPool.outstanding pool from rfl, hpool,
      Finset.mem_insert, h.outstanding]
    by_cases hq : q = p
    · simp [t', hq]
    · simp [t', hq]
  · rw [show EntryPool.outstanding t'.pool = EntryPool.outstanding pool from rfl, hpool,
      Finset.card_insert_of_notMem hfresh, ← h.count]
  · -- The block heads its chain: it is the one entry that was not linked.
    have hpush := (h.linked.congr_set (T := fun q => q ≠ p) (fun q f hf => by
      simp only [true_iff]
      rintro rfl
      rw [hmem] at hf
      cases hf)).push (p := p) (e := e) (by simp) hhead
    exact hpush.congr_set fun q f _ => by simp [em']
  · by_cases hq : q = p
    · subst hq
      obtain rfl : e = f := by simpa [t'] using hf
      exact ⟨key, value, hholds, hhash⟩
    · exact h.stored q f (by simpa [t', hq] using hf)
  · -- Two blocks with one key: the new one has a key that no other has.
    by_cases hq : q = p <;> by_cases hr : r = p
    · rw [hq, hr]
    · subst hq
      obtain rfl : e = f := by simpa [t'] using hf
      rw [hholds.key] at hfk
      cases hfk
      exact absurd hgk (hother r g (by simpa [t', hr] using hg))
    · subst hr
      obtain rfl : e = g := by simpa [t'] using hg
      rw [hholds.key] at hgk
      cases hgk
      exact absurd hfk (hother q f (by simpa [t', hq] using hf))
    · exact h.unique q r f g k (by simpa [t', hq] using hf) (by simpa [t', hr] using hg) hfk hgk
  · funext q
    by_cases hq : q = p
    · subst hq
      simp [contents, t', hholds.keyItem]
    · simp [contents, t', hq]

/-- The specification of `insert`. The pool decides: exhausted, the pointer is null and nothing
changes; otherwise a fresh block stores the pair, and the buckets double exactly when the
count passes them. -/
theorem insert_spec {t : Table} (h : t.Inv) {key value : Bytes}
    (hfit : key.length + value.length < 2 ^ 32) (habsent : t.view key = none) :
    (t.liveCount = kPoolCapacity ∧ t.insert key value = some (none, t)) ∨
      ∃ p t', t.insert key value = some (some p, t') ∧ t'.Inv ∧ t.contents p = none ∧
        t'.contents = Function.update t.contents p (some (key, ⟨value, kNoExpiry, 0⟩)) ∧
        t'.liveCount = t.liveCount + 1 ∧ t'.hashSeed = t.hashSeed ∧
        t'.bucketCount = if t.bucketCount < t.liveCount + 1 then t.bucketCount * 2
          else t.bucketCount := by
  unfold insert
  cases halloc : EntryPool.tryAllocate t.pool with
  | none => exact Or.inl ⟨by rw [h.count, EntryPool.tryAllocate_none halloc], rfl⟩
  | some bp =>
    obtain ⟨p, pool⟩ := bp
    right
    obtain ⟨payload, hpack, hholds⟩ := packPayload_holds hfit
    have hlt := slotOf_lt (hash32 t.hashSeed key) h.bucketCount_pos
    have hhead : t.buckets[t.bucketOf (hash32 t.hashSeed key)]? = some _ :=
      List.getElem?_eq_getElem hlt
    have hload := h.load
    -- The entry that the source writes into the block, linked to the head of its chain.
    let e : Entry :=
      { next := t.buckets[slotOf t.buckets.length (hash32 t.hashSeed key)]
        expiresAtMs := kNoExpiry, hash := hash32 t.hashSeed key, lruClock := 0
        keyLen := UInt32.ofNat key.length, valLen := UInt32.ofNat value.length, payload }
    obtain ⟨hbase, hnone, hcont⟩ := h.toBase.link halloc (e := e) (hholds e rfl rfl rfl) rfl
      hhead habsent
    -- Only then is the load checked, so the array has grown when the count is past it.
    obtain ⟨t', ht', hinv, hcont', hlive, hseed, hbc⟩ := maybeGrow_spec hbase
      (by simp only [bucketCount, List.length_set] at hload ⊢; omega)
    refine ⟨p, t', ?_, hinv, hnone, hcont'.trans hcont, hlive, hseed, ?_⟩
    · simp only [hpack, hhead, Option.bind_eq_bind, Option.bind_some, Option.pure_def]
      rw [ht']
      rfl
    · simp only [bucketCount, List.length_set] at hbc ⊢
      exact hbc

end Table

end TinyRedis

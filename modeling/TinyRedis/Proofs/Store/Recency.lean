import TinyRedis.Lib.Lru
import TinyRedis.Lib.Run
import TinyRedis.Proofs.Store.Evict
import TinyRedis.Proofs.Store.Ops

/-!
# `TinyRedis.Proofs.Store.Recency`: exact LRU when the sample covers the table

Under `kAllKeysLru`, a store whose sample reaches every entry behaves as the textbook cache of
`TinyRedis.Lib.Lru`. The store orders its keys by a 32-bit clock and a wrapping subtraction. That is
the order of the true times as long as no resident key has gone unused for `2 ^ 32` milliseconds
(`idle_lt_iff`), wherever the times lie. `Mirrors` relates the store to the cache, and a forward
simulation carries it over whole runs.

* `toNat_clock32_sub`: the wrapping difference is the true one, within its range.
* `LruCache.step`: a call on the cache, with the reply that it gives.
* `LruCache.Fresh`: the call comes after all uses, and within `2 ^ 32` milliseconds of each.
* `Mirrors.victim_eq_last`: the entry that the store evicts is the last of the cache.
* `Mirrors.set`, `Mirrors.find`, `Mirrors.step`: the calls.
* `run_eq_lru`: the store and the cache give the same replies, over a whole run.

The cache knows no deadlines, so the runs are of calls that set none (`Store.Op.Undated`). No two
uses may be at the same time: the store could not tell which was the later.
-/

set_option autoImplicit false

namespace TinyRedis

open Lib

/-! ### The clock -/

/-- The 32-bit clock counts milliseconds as long as they fit. -/
theorem toNat_clock32_sub {now used : Int64} (hle : used.toInt ≤ now.toInt)
    (hlt : now.toInt - used.toInt < 2 ^ 32) :
    ((clock32 now - clock32 used).toNat : Int) = now.toInt - used.toInt := by
  have hnat (x : Int64) : (clock32 x).toNat = x.toBitVec.toNat % 2 ^ 32 := by
    simp only [clock32, UInt64.toNat_toUInt32]
    rfl
  have hnow := BitVec.toInt_eq_toNat_cond now.toBitVec
  have hused := BitVec.toInt_eq_toNat_cond used.toBitVec
  have hnow' := now.toBitVec.isLt
  have hused' := used.toBitVec.isLt
  rw [show now.toBitVec.toInt = now.toInt from rfl] at hnow
  rw [show used.toBitVec.toInt = used.toInt from rfl] at hused
  rw [UInt32.toNat_sub, hnat, hnat]
  split at hnow <;> split at hused <;> omega

/-- Within the range of the clock, the key used earlier has idled longer. -/
theorem idle_lt_iff {now a b : Int64} (ha : a.toInt ≤ now.toInt) (hb : b.toInt ≤ now.toInt)
    (ha' : now.toInt - a.toInt < 2 ^ 32) (hb' : now.toInt - b.toInt < 2 ^ 32) :
    clock32 now - clock32 a < clock32 now - clock32 b ↔ b < a := by
  have hna := toNat_clock32_sub ha ha'
  have hnb := toNat_clock32_sub hb hb'
  rw [UInt32.lt_iff_toNat_lt, Int64.lt_iff_toInt_lt]
  omega

/-! ### The cache -/

/-- The textbook cache of keys and values. -/
abbrev LruCache := Lru Bytes Bytes Int64

namespace LruCache

/-- The reply and the cache after a call. `set` and a touching `find` are uses. No key has a
deadline, so `ttlMs` tells only whether it is there. -/
def step (cap : Nat) (c : LruCache) : Store.Op → Reply × LruCache
  | .find key now touch =>
      (.value ((c.lookup key).map Slot.value), if touch then c.touch key now else c)
  | .set key value _ now => (.bool true, c.put cap key value now)
  | .erase key _ => (.bool (c.lookup key).isSome, c.remove key)
  | .ttlMs key _ => (.ttl (if (c.lookup key).isSome then -1 else -2), c)
  | .clear => (.done, [])
  | .size => (.size c.length, c)
  | .setExpireAt _ _ _ => (.done, c)

/-- No resident key has gone unused for `2 ^ 32` milliseconds at the time of the call. -/
def Fresh (c : LruCache) (op : Store.Op) : Prop :=
  ∀ now ∈ op.now?, ∀ e ∈ c, now.toInt - e.used.toInt < 2 ^ 32

/-- Whether a call comes in time can be checked. -/
instance (c : LruCache) (op : Store.Op) : Decidable (c.Fresh op) :=
  inferInstanceAs (Decidable (∀ now ∈ op.now?, ∀ e ∈ c, _))

end LruCache

/-- The calls that give no key a deadline. -/
def Store.Op.Undated : Store.Op → Prop
  | .set _ _ expireAtMs _ => expireAtMs = kNoExpiry ∨ expireAtMs = kKeepTtl
  | .setExpireAt _ _ _ => False
  | _ => True

/-- Whether a call sets no deadline can be checked. -/
instance : DecidablePred Store.Op.Undated
  | .set _ _ _ _ => inferInstanceAs (Decidable (_ ∨ _))
  | .setExpireAt _ _ _ => inferInstanceAs (Decidable False)
  | .find _ _ _ | .erase _ _ | .ttlMs _ _ | .clear | .size => inferInstanceAs (Decidable True)

/-- After a call, every slot keeps the time of its use or was used by the call. -/
theorem LruCache.used_of_mem_step {m : Nat} {c : LruCache} {op : Store.Op}
    {e : Slot Bytes Bytes Int64} (h : e ∈ (c.step m op).2) :
    (∃ e' ∈ c, e'.used = e.used) ∨ op.now? = some e.used := by
  have hremove : ∀ {k}, e ∈ Lru.remove c k → ∃ e' ∈ c, e'.used = e.used :=
    fun he => ⟨e, List.mem_of_mem_filter he, rfl⟩
  cases op with
  | find key now touch =>
    cases touch with
    | false => exact Or.inl ⟨e, h, rfl⟩
    | true =>
      simp only [step, if_true, Lru.touch] at h
      split at h
      · exact Or.inl ⟨e, h, rfl⟩
      · rcases List.mem_cons.mp h with rfl | h
        · exact Or.inr rfl
        · exact Or.inl (hremove h)
  | set key value expireAtMs now =>
    rcases List.mem_cons.mp h with rfl | h
    · exact Or.inr rfl
    · split at h
      · exact Or.inl (hremove h)
      · exact Or.inl ⟨e, Lru.mem_of_mem_makeRoom h, rfl⟩
  | erase key now => exact Or.inl (hremove h)
  | ttlMs key now => exact Or.inl ⟨e, h, rfl⟩
  | clear => cases h
  | size => exact Or.inl ⟨e, h, rfl⟩
  | setExpireAt key expireAtMs now => exact Or.inl ⟨e, h, rfl⟩

/-- What the store keeps of a slot. -/
def slotItem (e : Slot Bytes Bytes Int64) : Item := ⟨e.value, kNoExpiry, clock32 e.used⟩

variable [EntryPool]

namespace Store

/-- The store `s` holds what the cache `c` of capacity `m` holds, and its sample covers it. -/
structure Mirrors (m : Nat) (s : Store) (c : LruCache) : Prop where
  inv : s.table.Inv
  policy : s.policy = .kAllKeysLru
  maxKeys_eq : s.maxKeys = m
  maxKeys_pos : 0 < m
  maxKeys_le : m ≤ kPoolCapacity
  samples : m ≤ s.lruSamples
  samples_le : s.lruSamples ≤ kLruSamplesMax
  buckets : s.bucketCount ≤ s.lruSamples * 10
  view_eq : ∀ k, s.view k = (c.lookup k).map slotItem
  ordered : c.Ordered
  length_le : c.length ≤ m

namespace Mirrors

variable {m : Nat} {s s' : Store} {c c' : LruCache}

/-- Nothing expires. -/
theorem live_eq (h : Mirrors m s c) (k : Bytes) (now : Int64) :
    s.view.live k now = (c.lookup k).map slotItem := by
  rw [Dict.live, h.view_eq]
  cases c.lookup k <;> rfl

/-- No item has a deadline, so a purge does nothing. -/
theorem purge_eq (h : Mirrors m s c) (k : Bytes) (now : Int64) : s.view.purge k now = s.view :=
  Dict.purge_of_live ((h.live_eq k now).trans (h.view_eq k).symm)

/-- The store has as many keys as the cache. -/
theorem size_eq (h : Mirrors m s c) : s.size = c.length := by
  have hkeys : s.table.keys = (c.map Slot.key).toFinset := by
    ext k
    rw [Table.mem_keys h.inv.toBase, List.mem_toFinset, ← not_iff_not,
      ← Lru.lookup_eq_none_iff, Option.not_isSome_iff_eq_none]
    have := h.view_eq k
    rw [view] at this
    rw [this, Option.map_eq_none_iff]
  rw [size, ← Table.card_keys h.inv.toBase, hkeys, List.toFinset_card_of_nodup h.ordered.nodup,
    List.length_map]

/-- A call that leaves a dictionary of the cache `c'`. -/
theorem leaves {v : Dict} {n : Nat} (h : Mirrors m s c) (hs : Leaves s s' v n)
    (hview : ∀ k, v k = (c'.lookup k).map slotItem) (hordered : c'.Ordered)
    (hlen : c'.length ≤ m) : Mirrors m s' c' where
  inv := hs.table.inv
  policy := by rw [hs.rest]; exact h.policy
  maxKeys_eq := by rw [hs.rest]; exact h.maxKeys_eq
  maxKeys_pos := h.maxKeys_pos
  maxKeys_le := h.maxKeys_le
  samples := by rw [hs.rest]; exact h.samples
  samples_le := by rw [hs.rest]; exact h.samples_le
  buckets := by
    rw [bucketCount, hs.table.bucketCount, hs.rest]
    exact h.buckets
  view_eq := by rw [view, hs.table.view]; exact hview
  ordered := hordered
  length_le := hlen

/-- Erasing a key on both sides. -/
theorem erase_view (h : Mirrors m s c) (key k : Bytes) :
    s.view.erase key k = ((c.remove key).lookup k).map slotItem := by
  rw [Lru.lookup_remove, Dict.erase]
  by_cases hk : k = key
  · subst hk
    simp
  · rw [Function.update_of_ne hk, if_neg hk, h.view_eq]

omit [EntryPool] in
/-- A use of a key on both sides: the slot goes to the front. -/
theorem use_view {v : Dict} {e : Slot Bytes Bytes Int64}
    (hview : ∀ k, k ≠ e.key → v k = (c.lookup k).map slotItem) (k : Bytes) :
    Function.update v e.key (some (slotItem e)) k
      = (Lru.lookup (e :: c.remove e.key) k).map slotItem := by
  rw [Lru.lookup_cons, Lru.lookup_remove]
  by_cases hk : k = e.key
  · subst hk
    simp
  · rw [Function.update_of_ne hk, if_neg (Ne.symm hk), if_neg hk, hview k hk]

/-- What a block stores, read as a slot of the cache. -/
theorem slot_of_contents (h : Mirrors m s c) {p : Ptr} {k : Bytes} {it : Item}
    (hc : s.table.contents p = some (k, it)) : ∃ e ∈ c, e.key = k ∧ it = slotItem e := by
  have hview := h.view_eq k
  rw [view, h.inv.toBase.view_of_contents hc] at hview
  obtain ⟨e, he, hit⟩ := Option.map_eq_some_iff.mp hview.symm
  obtain ⟨hmem, hkey⟩ := Lru.mem_of_lookup he
  exact ⟨e, hmem, hkey, hit.symm⟩

/-- The entry of a sample that has idled longest is that of the last slot: the sample covers the
cache, so the block of the last slot is in it too. -/
theorem victim_eq_last (h : Mirrors m s c) {now : Int64} (hpast : ∀ e ∈ c, e.used < now)
    (hfresh : ∀ e ∈ c, now.toInt - e.used.toInt < 2 ^ 32) (hne : c ≠ []) {r rng' : UInt64}
    {out : List Ptr} (hs : s.table.sampleSome s.lruSamples r = some (out, rng')) {q : Ptr}
    {e : Slot Bytes Bytes Int64} (hc : s.table.contents q = some (e.key, slotItem e)) (he : e ∈ c)
    (longest : ∀ p ∈ out, s.table.idleAt now p ≤ s.table.idleAt now q) :
    e.key = (c.getLast hne).key := by
  have hsize := h.size_eq
  have hlen := h.length_le
  have hsamples := h.samples
  have hlast : c.getLast hne ∈ c := List.getLast_mem hne
  obtain ⟨p, hp⟩ : ∃ p, s.table.contents p
      = some ((c.getLast hne).key, slotItem (c.getLast hne)) := by
    have hview := h.view_eq (c.getLast hne).key
    rw [h.ordered.lookup_of_mem hlast] at hview
    exact (Table.view_eq_some_iff h.inv.toBase).mp hview
  have hcovered : p ∈ out := Table.mem_sample_of_contents h.inv.toBase
    (by rw [← size]; omega) h.buckets hs hp
  have hidle := longest p hcovered
  rw [Table.idleAt_of_contents hp, Table.idleAt_of_contents hc] at hidle
  have hle (x : Slot Bytes Bytes Int64) (hx : x ∈ c) : x.used.toInt ≤ now.toInt := by
    have := Int64.lt_iff_toInt_lt.mp (hpast x hx)
    omega
  -- Were it another slot, it would have been used later than the last one, and idled less.
  by_contra hk
  have hlater := h.ordered.last_used_lt hne he hk
  have hless := (idle_lt_iff (hle e he) (hle _ hlast) (hfresh e he) (hfresh _ hlast)).mpr hlater
  exact absurd hless (UInt32.not_lt.mpr hidle)

/-- `evictOne` removes the least recently used key. -/
theorem evictOne (h : Mirrors m s c) {now : Int64} (hpast : ∀ e ∈ c, e.used < now)
    (hfresh : ∀ e ∈ c, now.toInt - e.used.toInt < 2 ^ 32) (hne : c ≠ []) :
    ∃ s', s.evictOne now = some s' ∧ Mirrors m s' c.dropLast := by
  have hsize := h.size_eq
  have hlen := h.length_le
  have hsamples := h.samples
  have hpos : 0 < c.length := List.length_pos_iff.mpr hne
  obtain ⟨r, out, rng', t', s', hevict, hs, hinv, hseed, hbc, hout⟩ :=
    evictOne_spec h.inv (by omega) (by omega) h.samples_le now
  obtain ⟨-, -, hstored⟩ := Table.sample_spec h.inv.toBase hs
  refine ⟨s', hevict, ?_⟩
  cases hout with
  | expired some_expired contents count =>
    -- Nothing in the cache has a deadline.
    obtain ⟨p, hp, hx⟩ := some_expired
    obtain ⟨k, it, hc⟩ := hstored p hp
    obtain ⟨e, -, -, rfl⟩ := h.slot_of_contents hc
    rw [Table.expiredAt, hc] at hx
    cases hx
  | evicted q sampled fresh longest contents count =>
    obtain ⟨k, it, hc⟩ := hstored q sampled
    obtain ⟨e, he, rfl, rfl⟩ := h.slot_of_contents hc
    have hvictim := h.victim_eq_last hpast hfresh hne hs hc he longest
    have hview := Table.view_remove h.inv.toBase hinv.toBase hc contents
    exact { h with
      inv := hinv
      buckets := by rw [bucketCount, hbc]; exact h.buckets
      view_eq := fun k' => by
        rw [view, hview, h.ordered.lookup_dropLast hne, ← hvictim]
        by_cases hk' : k' = e.key
        · subst hk'
          simp
        · rw [Function.update_of_ne hk', if_neg hk']
          exact h.view_eq k'
      ordered := h.ordered.sublist (List.dropLast_sublist c)
      length_le := by rw [List.length_dropLast]; omega }

/-- Making room on both sides. -/
theorem makeRoom (h : Mirrors m s c) {now : Int64} (hpast : ∀ e ∈ c, e.used < now)
    (hfresh : ∀ e ∈ c, now.toInt - e.used.toInt < 2 ^ 32) :
    ∃ s', s.makeRoom now = some (true, s') ∧ Mirrors m s' (Lru.makeRoom m c) ∧
      (Lru.makeRoom m c).length < m := by
  have hsize := h.size_eq
  have hpos := h.maxKeys_pos
  have hlen := h.length_le
  unfold Store.makeRoom Lru.makeRoom
  rw [h.maxKeys_eq, hsize, h.policy]
  by_cases hfull : c.length < m
  · rw [if_pos hfull, if_neg (by omega)]
    exact ⟨s, rfl, h, hfull⟩
  · have hne : c ≠ [] := List.ne_nil_of_length_pos (by omega)
    obtain ⟨s', hevict, h'⟩ := h.evictOne hpast hfresh hne
    rw [if_neg hfull, if_pos (by omega)]
    refine ⟨s', by simp [hevict], h', ?_⟩
    rw [List.length_dropLast]
    omega

/-- The insertion of a new key on both sides. -/
theorem insertNew (h : Mirrors m s c) {key value : Bytes} {expireAtMs now : Int64}
    (hfit : key.length + value.length < 2 ^ 32)
    (hundated : expireAtMs = kNoExpiry ∨ expireAtMs = kKeepTtl) (habsent : c.lookup key = none)
    (hpast : ∀ e ∈ c, e.used < now) (hroom : c.length < m) :
    ∃ s', s.insertNew key value expireAtMs now = some s' ∧
      Mirrors m s' (⟨key, value, now⟩ :: c) := by
  have hsize := h.size_eq
  have hcap := h.maxKeys_le
  have hview : s.view key = none := by rw [h.view_eq, habsent]; rfl
  obtain ⟨t', hins, hinv, hview', -, -, hbc⟩ :=
    insertNew_spec h.inv expireAtMs now hfit hview (by omega)
  have hitem : Dict.written none value expireAtMs now = slotItem ⟨key, value, now⟩ := by
    rcases hundated with rfl | rfl <;> rfl
  refine ⟨_, hins, ?_⟩
  exact { inv := hinv
          policy := h.policy
          maxKeys_eq := h.maxKeys_eq
          maxKeys_pos := h.maxKeys_pos
          maxKeys_le := h.maxKeys_le
          samples := h.samples
          samples_le := h.samples_le
          buckets := by
            -- A table that grows was full, so it still has no more buckets than the budget.
            have hbuckets := h.buckets
            have hsamples := h.samples
            show t'.bucketCount ≤ s.lruSamples * 10
            rw [hbc]
            split <;> omega
          view_eq := fun k => by
            rw [view, hview', hitem, Lru.lookup_cons]
            by_cases hk : k = key
            · subst hk
              simp
            · rw [Function.update_of_ne hk, if_neg (Ne.symm hk)]
              exact h.view_eq k
          ordered := h.ordered.cons habsent hpast
          length_le := hroom }

/-- `set` on both sides. -/
theorem set (h : Mirrors m s c) {key value : Bytes} {expireAtMs now : Int64}
    (hfit : key.length + value.length < 2 ^ 32)
    (hundated : expireAtMs = kNoExpiry ∨ expireAtMs = kKeepTtl)
    (hpast : ∀ e ∈ c, e.used < now) (hfresh : ∀ e ∈ c, now.toInt - e.used.toInt < 2 ^ 32) :
    ∃ s', s.set key value expireAtMs now = some (true, s') ∧
      Mirrors m s' (Lru.put m c key value now) := by
  have hdue : ¬ Past expireAtMs now := by
    rintro ⟨hno, hkeep, -⟩
    exact hundated.elim hno hkeep
  have hlive := h.live_eq key now
  unfold Lru.put
  cases hl : c.lookup key with
  | some e =>
    rw [hl, Option.map_some] at hlive
    -- The key is resident: its slot is rewritten and comes to the front.
    obtain ⟨s', hset, hs⟩ := set_present h.inv hfit hdue hlive
    have hitem : Dict.written (some (slotItem e)) value expireAtMs now
        = slotItem ⟨key, value, now⟩ := by
      rcases hundated with rfl | rfl <;> rfl
    rw [hitem] at hs
    have hlt := Lru.length_remove_lt hl
    have hlen := h.length_le
    refine ⟨s', hset, h.leaves hs (use_view (e := ⟨key, value, now⟩) fun k _ => h.view_eq k)
      ((h.ordered.remove key).cons (by rw [Lru.lookup_remove, if_pos rfl])
        fun x hx => hpast x (List.mem_of_mem_filter hx)) ?_⟩
    show (c.remove key).length + 1 ≤ m
    omega
  | none =>
    rw [hl, Option.map_none] at hlive
    -- The lookup purges nothing, so room is made on the same cache.
    obtain ⟨r, s₁, hlook, hL⟩ := lookup_spec h.inv key now
    have h₁ : Mirrors m s₁ c := h.leaves hL.toLeaves
      (fun k => by rw [h.purge_eq]; exact h.view_eq k) h.ordered h.length_le
    obtain rfl := hL.eq_none hlive
    obtain ⟨s₂, hroom, h₂, hlt⟩ := h₁.makeRoom hpast hfresh
    have hsub : ∀ e ∈ Lru.makeRoom m c, e ∈ c := fun e he => Lru.mem_of_mem_makeRoom he
    have habsent : (Lru.makeRoom m c).lookup key = none := by
      rw [Lru.lookup_eq_none_iff]
      intro hmem
      obtain ⟨e, he, hkey⟩ := List.mem_map.mp hmem
      exact Lru.lookup_eq_none_iff.mp hl (List.mem_map.mpr ⟨e, hsub e he, hkey⟩)
    obtain ⟨s', hins, h'⟩ := h₂.insertNew hfit hundated habsent
      (fun e he => hpast e (hsub e he)) hlt
    refine ⟨s', ?_, h'⟩
    rw [set_absent hlook hdue, hroom]
    simp [hins]

/-- A lookup drops nothing: no slot has a deadline. -/
theorem purged_eq (h : Mirrors m s c) (key : Bytes) (now : Int64) (k : Bytes) :
    s.view.purge key now k = (c.lookup k).map slotItem := by
  rw [h.purge_eq]
  exact h.view_eq k

/-- A `find` moves the slot to the front exactly when it touches. -/
theorem find (h : Mirrors m s c) (key : Bytes) {now : Int64} (touch : Bool)
    (hpast : ∀ e ∈ c, e.used < now) :
    ∃ s', (Op.find key now touch).run s = some ((c.step m (.find key now touch)).1, s') ∧
      Mirrors m s' (c.step m (.find key now touch)).2 := by
  obtain ⟨s', hrun, hs⟩ := run_find h.inv key now touch
  refine ⟨s', ?_, ?_⟩
  · rw [hrun, h.live_eq, Option.map_map]
    rfl
  · cases touch with
    | false => exact h.leaves hs (h.purged_eq key now) h.ordered h.length_le
    | true =>
      simp only [LruCache.step, if_true, Lru.touch] at hs ⊢
      cases hl : c.lookup key with
      | none =>
        -- A touch of an absent key changes neither side.
        refine h.leaves hs (fun k => ?_) h.ordered h.length_le
        by_cases hk : k = key
        · subst hk
          simp [Dict.touch, h.live_eq, hl]
        · rw [Dict.touch, Function.update_of_ne hk, h.purged_eq]
      | some e =>
        have hlt := Lru.length_remove_lt hl
        have hlen := h.length_le
        refine h.leaves hs (fun k => ?_) ((h.ordered.remove key).cons
          (by rw [Lru.lookup_remove, if_pos rfl])
          fun x hx => hpast x (List.mem_of_mem_filter hx)) (show _ + 1 ≤ m by omega)
        rw [Dict.touch, Dict.purge_self, h.live_eq, hl]
        exact use_view (e := ⟨key, e.value, now⟩) (fun k _ => h.purged_eq key now k) k

/-- The step lemma: the store answers a call as the cache does, and mirrors the new cache. -/
theorem step (h : Mirrors m s c) {op : Op} (hfit : op.Fits) (hundated : op.Undated)
    (hpast : ∀ now ∈ op.now?, ∀ e ∈ c, e.used < now) (hfresh : c.Fresh op) :
    ∃ s', op.run s = some ((c.step m op).1, s') ∧ Mirrors m s' (c.step m op).2 := by
  cases op with
  | find key now touch => exact h.find key touch (hpast now rfl)
  | set key value expireAtMs now =>
    obtain ⟨s', hset, h'⟩ := h.set hfit hundated (hpast now rfl) (hfresh now rfl)
    exact ⟨s', by simp [Op.run, hset, LruCache.step], h'⟩
  | erase key now =>
    obtain ⟨s', hrun, hs⟩ := erase_spec h.inv key now
    refine ⟨s', by simp [Op.run, hrun, LruCache.step, h.live_eq],
      h.leaves hs (h.erase_view key) (h.ordered.remove key) ?_⟩
    exact Nat.le_trans (List.length_filter_le _ _) h.length_le
  | ttlMs key now =>
    obtain ⟨s', hrun, hs⟩ := ttlMs_spec h.inv key now
    refine ⟨s', ?_, h.leaves hs (h.purged_eq key now) h.ordered h.length_le⟩
    rw [h.live_eq] at hrun
    simp only [Op.run, hrun, LruCache.step]
    cases c.lookup key <;> rfl
  | clear =>
    obtain ⟨t', hrun, hb⟩ := clear_spec h.inv
    refine ⟨{ s with table := t', expireCursor := 0 }, by simp [Op.run, hrun, LruCache.step], ?_⟩
    exact { h with
      inv := hb.inv
      buckets := by rw [bucketCount, hb.bucketCount]; exact h.buckets
      view_eq := fun k => by rw [view, hb.view]; rfl
      ordered := Lru.Ordered.nil
      length_le := Nat.zero_le m }
  | size => exact ⟨s, by simp [Op.run, LruCache.step, h.size_eq], h⟩
  | setExpireAt key expireAtMs now => exact absurd hundated id

/-- The run lemma. -/
theorem run {ops : List Op} :
    ∀ {s : Store} {c : LruCache}, Mirrors m s c → (∀ op ∈ ops, op.Fits ∧ op.Undated) →
      (∀ now ∈ ops.filterMap Op.now?, ∀ e ∈ c, e.used < now) →
      (ops.filterMap Op.now?).Pairwise (· < ·) →
      Allowed (LruCache.step m) LruCache.Fresh c ops →
      ∃ s', outputsM Op.run s ops = some ((outputs (LruCache.step m) c ops).1, s') ∧
        Mirrors m s' (outputs (LruCache.step m) c ops).2 := by
  induction ops with
  | nil =>
    intro s c h _ _ _ _
    exact ⟨s, rfl, h⟩
  | cons op ops ih =>
    intro s c h hops hpast hsorted hfresh
    obtain ⟨hfit, hundated⟩ := hops op List.mem_cons_self
    have hnow : ∀ now ∈ op.now?, ∀ e ∈ c, e.used < now := fun now ht =>
      hpast now (List.mem_filterMap.mpr ⟨op, List.mem_cons_self, ht⟩)
    obtain ⟨s₁, hrun₁, h₁⟩ := h.step hfit hundated hnow hfresh.1
    have hlater : ∀ now ∈ ops.filterMap Op.now?, ∀ e ∈ (c.step m op).2, e.used < now := by
      intro t ht e he
      rcases LruCache.used_of_mem_step he with ⟨e', he', hused⟩ | hused
      · obtain ⟨op', hop', ht'⟩ := List.mem_filterMap.mp ht
        rw [← hused]
        exact hpast t (List.mem_filterMap.mpr ⟨op', List.mem_cons_of_mem op hop', ht'⟩) e' he'
      · -- A slot used by this call is older than every later call.
        rw [List.filterMap_cons_some hused] at hsorted
        exact (List.pairwise_cons.mp hsorted).1 t ht
    have hsorted' : (ops.filterMap Op.now?).Pairwise (· < ·) :=
      hsorted.sublist ((List.sublist_cons_self op ops).filterMap _)
    obtain ⟨s', hrun', h'⟩ := ih h₁ (fun o ho => hops o (List.mem_cons_of_mem op ho)) hlater
      hsorted' hfresh.2
    exact ⟨s', by simp [outputsM, hrun₁, hrun', outputs], h'⟩

end Mirrors

/-- A store whose sample covers its table is the textbook LRU cache: from any generator state,
it answers every run of undated calls at increasing times as the cache does, and ends with the
same keys, as long as no resident key goes unused for `2 ^ 32` milliseconds. -/
theorem run_eq_lru {cfg : Config} {rd : UInt64} (rng : UInt64) {s₀ : Store} {ops : List Op}
    (hpolicy : cfg.policy = .kAllKeysLru) (hmax : cfg.maxKeys ≤ kPoolCapacity)
    (hsamples : resolveMaxKeys cfg.maxKeys ≤ cfg.lruSamples) (hsamples' : cfg.lruSamples ≤ 64)
    (hnew : Store.new cfg rd = some s₀) (hbuckets : s₀.bucketCount ≤ 10 * cfg.lruSamples)
    (hops : ∀ op ∈ ops, op.Fits ∧ op.Undated)
    (htimes : (ops.filterMap Op.now?).Pairwise (· < ·))
    (hfresh : Allowed (LruCache.step (resolveMaxKeys cfg.maxKeys)) LruCache.Fresh [] ops) :
    let r := outputs (LruCache.step (resolveMaxKeys cfg.maxKeys)) [] ops
    ∃ s, outputsM Op.run { s₀ with rngState := rng } ops = some (r.1, s) ∧
      ∀ k, k ∈ s.table.keys ↔ k ∈ r.2.map Slot.key := by
  obtain ⟨hinv, hview, -, hp, hm, hs, -⟩ := new_spec hnew
  obtain ⟨hpos, hcap⟩ := resolveMaxKeys_bounds hmax
  -- The generator decides nothing, so its state is free.
  have hstart : Mirrors (resolveMaxKeys cfg.maxKeys) { s₀ with rngState := rng } [] :=
    { inv := hinv
      policy := hp.trans hpolicy
      maxKeys_eq := hm
      maxKeys_pos := hpos
      maxKeys_le := hcap
      samples := by rw [hs]; exact hsamples
      samples_le := by rw [hs]; exact hsamples'
      buckets := by rw [hs, Nat.mul_comm]; exact hbuckets
      view_eq := fun k => congrFun hview k
      ordered := Lru.Ordered.nil
      length_le := Nat.zero_le _ }
  obtain ⟨s, hrun, h⟩ := hstart.run hops (fun _ _ e he => absurd he List.not_mem_nil) htimes hfresh
  refine ⟨s, hrun, fun k => ?_⟩
  have hk := h.view_eq k
  rw [view] at hk
  rw [Table.mem_keys h.inv.toBase, hk, Option.isSome_map, ← not_iff_not,
    Option.not_isSome_iff_eq_none]
  exact Lru.lookup_eq_none_iff

omit [EntryPool] in
/-- A cap of two keys, at times on both sides of `2 ^ 32`: the key that was not used again goes. -/
theorem run_eq_lru_rollover : letI := slabPool
    let cfg : Config := { maxKeys := 2, seed := 7, initialBuckets := 4, policy := .kAllKeysLru }
    let ops : List Op := [.set [1] [10] (-1) 4294967290, .set [2] [20] (-1) 4294967295,
      .find [1] 4294967296 true, .find [2] 4294967297 false, .set [3] [30] (-2) 4294967298,
      .ttlMs [2] 4294967299, .find [1] 4294967300 true]
    ∃ s₀ s, Store.new cfg 0 = some s₀ ∧ outputsM Op.run { s₀ with rngState := 99 } ops
        = some ([.bool true, .bool true, .value (some [10]), .value (some [20]), .bool true,
          .ttl (-2), .value (some [10])], s) ∧
      ∀ k, k ∈ s.table.keys ↔ k ∈ [[1], [3]] := by
  let _ := slabPool
  intro cfg ops
  let s₀ := (Store.new cfg 0).get (by decide)
  have hnew : Store.new cfg 0 = some s₀ := (Option.some_get _).symm
  obtain ⟨s, hrun, hkeys⟩ := run_eq_lru 99 rfl (by decide) (by decide)
    (by decide) hnew (by decide) (show ∀ op ∈ ops, op.Fits ∧ op.Undated by decide) (by decide)
    (by decide)
  exact ⟨s₀, s, hnew, hrun, hkeys⟩

end Store

end TinyRedis

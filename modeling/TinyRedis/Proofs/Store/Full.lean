import TinyRedis.Proofs.Store.Outcomes

/-!
# `TinyRedis.Proofs.Store.Full`: a new key in a full store that evicts

At capacity under `kAllKeysLru` a `set` of a new key removes the expired entries of a sample, or, if
the sample has none, the entry of the sample that has idled longest. Either way the new key is
stored, and every other entry stays as it was.

* `ReapedSample`: the expired entries of the sample are gone, and count as expiries.
* `EvictedLongest`: the sample had none, and the entry that idled longest is gone and counts as an
  eviction.
* `ReapedSample.not_evictedLongest`: it is never both.
* `Evicted.gone`: the outcomes of `evictOne`, in terms of keys.
* `Sound.set_evicting`: the `set`, step by step.
* `set_full`: the same for every store that can be reached.

The outcomes are about keys and counters, not about blocks, because the new key may be given the
block of the one that went.
-/

set_option autoImplicit false

namespace TinyRedis

variable [EntryPool]

namespace Store

/-- The entries that left are those of the sample that had expired, and count as expiries. -/
structure ReapedSample (s s' : Store) (now : Int64) (out : List Ptr) : Prop where
  gone_iff : ∀ k, k ∈ s.keys \ s'.keys ↔
    ∃ p ∈ out, ∃ it, s.table.contents p = some (k, it) ∧ it.expired now = true
  nonempty : (s.keys \ s'.keys).Nonempty
  expiredKeys : s'.expiredKeys = s.expiredKeys + (s.keys \ s'.keys).card
  evictions : s'.evictions = s.evictions

/-- No entry of the sample had expired. One that had idled longest left, and counts as an
eviction. -/
structure EvictedLongest (s s' : Store) (now : Int64) (out : List Ptr) : Prop where
  fresh : ∀ p ∈ out, ∀ k it, s.table.contents p = some (k, it) → it.expired now = false
  gone : ∃ q ∈ out, ∃ k it, s.table.contents q = some (k, it) ∧ s.keys \ s'.keys = {k} ∧
    ∀ p ∈ out, ∀ k' it', s.table.contents p = some (k', it') →
      clock32 now - it'.lruClock ≤ clock32 now - it.lruClock
  evictions : s'.evictions = s.evictions + 1
  expiredKeys : s'.expiredKeys = s.expiredKeys

/-- The two do not come together: one counts an expiry, the other none. -/
theorem ReapedSample.not_evictedLongest {s s' : Store} {now : Int64} {out : List Ptr}
    (h : ReapedSample s s' now out) : ¬ EvictedLongest s s' now out := by
  intro h'
  have hpos := Finset.card_pos.mpr h.nonempty
  have := h.expiredKeys
  have := h'.expiredKeys
  omega

/-- What `evictOne` removes, by keys. -/
theorem Evicted.gone {s s' : Store} (h : s.table.Inv) {now : Int64} {out : List Ptr}
    {rng' : UInt64} {t' : Table} (hstored : ∀ p ∈ out, ∃ k it, s.table.contents p = some (k, it))
    (hinv : t'.Inv) (hout : Evicted s now out rng' t' s') (hdrops : Drops now s s') :
    ReapedSample s s' now out ∨ EvictedLongest s s' now out := by
  have hcard := card_gone_add_size h hdrops.inv (hdrops.keys_subset h)
  -- The blocks that are gone are read as keys: the expired ones of the sample, or one.
  cases hout with
  | expired some_expired contents count =>
    left
    have hgone : ∀ k, k ∈ s.keys \ t'.keys ↔
        ∃ p ∈ out, ∃ it, s.table.contents p = some (k, it) ∧ it.expired now = true := by
      intro k
      rw [keys, Table.mem_keys_sdiff_iff h.toBase hinv.toBase contents]
      constructor
      · rintro ⟨p, it, ⟨hp, hx⟩, hc⟩
        exact ⟨p, hp, it, hc, (Table.expiredAt_of_contents hc now).symm.trans hx⟩
      · rintro ⟨p, hp, it, hc, hx⟩
        exact ⟨p, it, ⟨hp, (Table.expiredAt_of_contents hc now).trans hx⟩, hc⟩
    obtain ⟨p, hp, hx⟩ := some_expired
    obtain ⟨k, it, hc⟩ := hstored p hp
    have hk := (hgone k).mpr ⟨p, hp, it, hc, (Table.expiredAt_of_contents hc now).symm.trans hx⟩
    refine ⟨hgone, ⟨k, hk⟩, ?_, rfl⟩
    show s.expiredKeys + (out.filter (s.table.expiredAt now)).length = _
    have hsize : t'.size + (out.filter (s.table.expiredAt now)).length = s.size := count
    have hcard' : (s.keys \ t'.keys).card + t'.size = s.size := hcard
    show _ = s.expiredKeys + (s.keys \ t'.keys).card
    omega
  | evicted q sampled fresh longest contents count =>
    right
    obtain ⟨k, it, hc⟩ := hstored q sampled
    have hgone : s.keys \ t'.keys = {k} :=
      Table.keys_sdiff_remove h.toBase hinv.toBase hc contents
    refine ⟨fun p hp k' it' hc' => ?_, ⟨q, sampled, k, it, hc, hgone, fun p hp k' it' hc' => ?_⟩,
      rfl, rfl⟩
    · exact (Table.expiredAt_of_contents hc' now).symm.trans (fresh p hp)
    · rw [← Table.idleAt_of_contents hc', ← Table.idleAt_of_contents hc]
      exact longest p hp

/-- Both say no more of the store afterwards than the keys that have left and the counters. -/
theorem ReapedSample.congr {s s₁ s' : Store} {now : Int64} {out : List Ptr}
    (h : ReapedSample s s₁ now out) (hgone : s.keys \ s'.keys = s.keys \ s₁.keys)
    (hexpired : s'.expiredKeys = s₁.expiredKeys) (hevictions : s'.evictions = s₁.evictions) :
    ReapedSample s s' now out where
  gone_iff k := by
    rw [hgone]
    exact h.gone_iff k
  nonempty := by
    rw [hgone]
    exact h.nonempty
  expiredKeys := by
    rw [hexpired, hgone]
    exact h.expiredKeys
  evictions := hevictions.trans h.evictions

/-- The outcome is about keys and counters only. -/
theorem EvictedLongest.congr {s s₁ s' : Store} {now : Int64} {out : List Ptr}
    (h : EvictedLongest s s₁ now out) (hgone : s.keys \ s'.keys = s.keys \ s₁.keys)
    (hexpired : s'.expiredKeys = s₁.expiredKeys) (hevictions : s'.evictions = s₁.evictions) :
    EvictedLongest s s' now out where
  fresh := h.fresh
  gone := by
    rw [hgone]
    exact h.gone
  evictions := hevictions.trans h.evictions
  expiredKeys := hexpired.trans h.expiredKeys

/-- A `set` of a new key in a full store that evicts: room is made, and the key stored. -/
theorem Sound.set_evicting {s : Store} (hs : Sound s) (hsamples : 1 ≤ s.lruSamples)
    (hsamples' : s.lruSamples ≤ kLruSamplesMax) (hpolicy : s.policy = .kAllKeysLru)
    (hfull : s.size = s.maxKeys) {key value : Bytes} {expireAtMs now : Int64}
    (hfit : key.length + value.length < 2 ^ 32) (habsent : s.view key = none)
    (hpast : ¬ Past expireAtMs now) :
    ∃ s' out rng', s.set key value expireAtMs now = some (true, s') ∧
      sampleRetry s.table s.lruSamples (2 ^ 64) s.rngState = some (out, rng') ∧
      s'.view key = some (Dict.written none value expireAtMs now) ∧
      (ReapedSample s s' now out ∨ EvictedLongest s s' now out) ∧
      ∀ k, k ≠ key → k ∉ s.keys \ s'.keys → s'.view k = s.view k := by
  obtain ⟨hinv, -, hpos⟩ := hs
  -- The store is full, so an entry is sampled and removed.
  have hsize : s.table.size ≠ 0 := by
    rw [← Store.size]
    omega
  obtain ⟨r, out, rng', hretry, -, hs⟩ :=
    sampleRetry_spec hinv.toBase hsize (show s.lruSamples ≠ 0 by omega) s.rngState
  obtain ⟨-, hlen, hstored⟩ := Table.sample_spec hinv.toBase hs
  obtain ⟨t', s₂, hevict, hinv', -, -, hout⟩ := evictOne_of_retry hinv hretry
    (Nat.le_trans hlen hsamples') now
  have hroom : s.makeRoom now = some (true, s₂) := by
    rw [makeRoom, if_pos (Nat.le_of_eq hfull.symm), hpolicy]
    simp [hevict]
  obtain ⟨hdrops, hlt⟩ := evictOne_drops hinv hevict
  have habsent₂ : s₂.view key = none := hdrops.absent habsent
  -- What is left is less than the pool, so the insertion gets a block.
  have hblock : s₂.size < kPoolCapacity := Nat.lt_of_lt_of_le hlt hinv.toBase.liveCount_le
  obtain ⟨t'', hins, hinv'', hview, -, -, -⟩ :=
    insertNew_spec hdrops.inv expireAtMs now hfit habsent₂ hblock
  let s' : Store := { s₂ with table := t'' }
  -- The new key was not there before, so what has left is what was removed.
  have hgone : s.keys \ s'.keys = s.keys \ s₂.keys := by
    ext k
    rw [Finset.mem_sdiff, Finset.mem_sdiff, mem_keys hinv, mem_keys hdrops.inv,
      mem_keys (show s'.table.Inv from hinv''), show s'.view = _ from hview]
    by_cases hk : k = key
    · simp [hk, habsent]
    · rw [Function.update_of_ne hk]
  refine ⟨s', out, rng', ?_, hretry, ?_, ?_, fun k hk hstays => ?_⟩
  · rw [set_absent (lookup_absent hinv habsent now) hpast, hroom]
    simp [hins, s']
  · rw [view, hview, Function.update_self]
  · rcases Evicted.gone hinv hstored hinv' hout hdrops with hreaped | hevicted
    · exact Or.inl (hreaped.congr hgone rfl rfl)
    · exact Or.inr (hevicted.congr hgone rfl rfl)
  · rw [hgone] at hstays
    rw [view, hview, Function.update_of_ne hk]
    exact hdrops.view_of_stays hinv hstays

/-- A new key in a full store that evicts. From every generator state, `set` stores the key with its
value and its deadline, and removes the expired entries of the last sample, or the entry of it that
has idled longest if none had expired. All other entries stay as they were. -/
theorem set_full {cfg : Config} {s : Store} (hreach : Reachable cfg s)
    (hsamples : 1 ≤ cfg.lruSamples) (hsamples' : cfg.lruSamples ≤ 64)
    (hpolicy : cfg.policy = .kAllKeysLru) (hfull : s.size = s.maxKeys) (rngState : UInt64)
    {key value : Bytes} {expireAtMs now : Int64} (hfit : key.length + value.length < 2 ^ 32)
    (habsent : s.view key = none)
    (hdeadline : expireAtMs = kNoExpiry ∨ expireAtMs = kKeepTtl ∨ now ≤ expireAtMs) :
    ∃ s' out rng',
      ({ s with rngState } : Store).set key value expireAtMs now = some (true, s') ∧
      sampleRetry s.table s.lruSamples (2 ^ 64) rngState = some (out, rng') ∧
      s'.view key = some { value, lruClock := clock32 now
                           expiresAtMs :=
                             if expireAtMs = kKeepTtl then kNoExpiry else expireAtMs } ∧
      (ReapedSample s s' now out ∧ ¬ EvictedLongest s s' now out ∨
        EvictedLongest s s' now out ∧ ¬ ReapedSample s s' now out) ∧
      ∀ k, k ≠ key → k ∉ s.keys \ s'.keys → s'.view k = s.view k := by
  obtain ⟨-, hlru, hpol⟩ := hreach.config
  have hpast : ¬ Past expireAtMs now := by
    rintro ⟨hno, hkeep, hlt⟩
    rcases hdeadline with heq | heq | hle
    · exact hno heq
    · exact hkeep heq
    · exact absurd hlt (Int64.not_lt.mpr hle)
  -- The state of the generator is no part of what makes a store sound.
  have hs : Sound { s with rngState } :=
    ⟨hreach.sound.inv, hreach.sound.size_le, hreach.sound.maxKeys_pos⟩
  obtain ⟨s', out, rng', hset, hretry, hview, hgone, hrest⟩ :=
    hs.set_evicting (by rw [hlru]; exact hsamples) (by rw [hlru]; exact hsamples')
      (hpol.trans hpolicy) hfull hfit habsent hpast
  refine ⟨s', out, rng', hset, hretry, hview, ?_, hrest⟩
  rcases hgone with hreaped | hevicted
  · have h : ReapedSample s s' now out := ⟨hreaped.1, hreaped.2, hreaped.3, hreaped.4⟩
    exact Or.inl ⟨h, h.not_evictedLongest⟩
  · have h : EvictedLongest s s' now out := ⟨hevicted.1, hevicted.2, hevicted.3, hevicted.4⟩
    exact Or.inr ⟨h, fun h' => h'.not_evictedLongest h⟩

omit [EntryPool] in
/-- A full store of three keys, one of them with a deadline. Before the deadline the oldest key has
to make room for the new one, after it the one with the deadline. -/
theorem set_full_three : letI := slabPool
    let cfg : Config := { maxKeys := 3, seed := 7, initialBuckets := 4, policy := .kAllKeysLru }
    let calls : List Call := [.client (.set [1] [2] (-1) 10), .client (.set [2] [3] 35 20),
      .client (.set [3] [4] (-1) 21)]
    ∃ s₀ s s₁ s₂ : Store, Store.new cfg 0 = some s₀ ∧ calls.foldlM Call.run s₀ = some s ∧
      ({ s with rngState := 42 } : Store).set [4] [5] 50 30 = some (true, s₁) ∧
      (∃ out, EvictedLongest s s₁ 30 out) ∧ s₁.view [1] = none ∧
      ({ s with rngState := 42 } : Store).set [4] [5] 50 36 = some (true, s₂) ∧
      (∃ out, ReapedSample s s₂ 36 out) ∧ s₂.view [2] = none := by
  let _ := slabPool
  intro cfg calls
  have hfit : ∀ call ∈ calls, call.Fits := by decide
  obtain ⟨s₀, s, hnew, hrun, hs⟩ := exists_run cfg 0 calls
    (fun _ s => decide (s.size = s.maxKeys ∧ s.view [4] = none ∧ s.evictions = 0 ∧
      s.expiredKeys = 0 ∧
      (({ s with rngState := 42 } : Store).set [4] [5] 50 30).any
        (fun r => decide (r.2.view [1] = none ∧ r.2.evictions = 1)) = true ∧
      (({ s with rngState := 42 } : Store).set [4] [5] 50 36).any
        (fun r => decide (r.2.view [2] = none ∧ r.2.expiredKeys = 1)) = true)) (by decide +kernel)
  obtain ⟨hfull, habsent, hevictions, hexpired, hearly, hlate⟩ := of_decide_eq_true hs
  have hreach : Reachable cfg s := ⟨0, s₀, calls, hnew, hfit, hrun⟩
  have hkey : ([4] : Bytes).length + ([5] : Bytes).length < 2 ^ 32 := by decide
  obtain ⟨s₁, out₁, -, hset₁, -, -, hgone₁, -⟩ := set_full hreach (by decide) (by decide) rfl hfull
    42 hkey habsent (show (50 : Int64) = kNoExpiry ∨ (50 : Int64) = kKeepTtl ∨ (30 : Int64) ≤ 50
      by decide)
  obtain ⟨s₂, out₂, -, hset₂, -, -, hgone₂, -⟩ := set_full hreach (by decide) (by decide) rfl hfull
    42 hkey habsent (show (50 : Int64) = kNoExpiry ∨ (50 : Int64) = kKeepTtl ∨ (36 : Int64) ≤ 50
      by decide)
  rw [hset₁] at hearly
  rw [hset₂] at hlate
  obtain ⟨hview₁, hcount₁⟩ := of_decide_eq_true hearly
  obtain ⟨hview₂, hcount₂⟩ := of_decide_eq_true hlate
  -- The counters tell which of the two it was.
  have hevicted : EvictedLongest s s₁ 30 out₁ := by
    rcases hgone₁ with ⟨h, -⟩ | ⟨h, -⟩
    · exact absurd (hcount₁.symm.trans (h.evictions.trans hevictions)) (by decide)
    · exact h
  have hreaped : ReapedSample s s₂ 36 out₂ := by
    rcases hgone₂ with ⟨h, -⟩ | ⟨h, -⟩
    · exact h
    · exact absurd (hcount₂.symm.trans (h.expiredKeys.trans hexpired)) (by decide)
  exact ⟨s₀, s, s₁, s₂, hnew, hrun, hset₁, ⟨out₁, hevicted⟩, hview₁, hset₂, ⟨out₂, hreaped⟩, hview₂⟩

end Store

end TinyRedis

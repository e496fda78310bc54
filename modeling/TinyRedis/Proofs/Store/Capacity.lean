import TinyRedis.Proofs.Store.Cycle
import TinyRedis.Proofs.Store.Ops

/-!
# `TinyRedis.Proofs.Store.Capacity`: the store stays within its cap

`Cap` is the capacity invariant: at most `maxKeys` keys, a cap between one and the pool, a sample
size that fits the buffer, and a presized table that has never grown. Every call keeps it under
either policy. From it follows that `set` always finds a pool block for a new key, and that
`evictOne` never meets an empty table.

* `Cap.shrink`, `Cap.leaves`: a call that adds no key keeps it.
* `Cap.evictOne`, `Cap.makeRoom`, `Cap.insertNew`: the three steps of a `set` that adds one.
* `Cap.set`, `Cap.find` and so on: every call is defined, and keeps it.
* `Cap.step`, `Cap.run`: one call, and a run of calls and expire cycles.
* `Cap.new`: a new store has it.
* `WithinCapacity`, `run_withinCapacity`: what it comes to for a client of the store.

The invariant is what makes every other result about the store unconditional: where it holds no call
is undefined, so what is shown of a call that returns is shown of the call.
-/

set_option autoImplicit false

namespace TinyRedis

open Lib

namespace Dict

variable {v : Dict} {key : Bytes} {now : Int64}

/-- A live key is a key. -/
theorem isSome_of_live {it : Item} (h : v.live key now = some it) : (v key).isSome := by
  cases hv : v key with
  | none =>
    rw [live_eq_none_of_none hv] at h
    cases h
  | some it' => rfl

/-- A write at a key that is there adds no key. -/
theorem isSome_of_update {k : Bytes} {o : Option Item} (hkey : o.isSome → (v key).isSome)
    (h : (Function.update v key o k).isSome) : (v k).isSome := by
  by_cases hk : k = key
  · subst hk
    rw [Function.update_self] at h
    exact hkey h
  · rw [Function.update_of_ne hk] at h
    exact h

/-- A purge adds no key. -/
theorem isSome_of_purge {k : Bytes} (h : (v.purge key now k).isSome) : (v k).isSome := by
  refine isSome_of_update (fun hlive => ?_) h
  obtain ⟨it, hit⟩ := Option.isSome_iff_exists.mp hlive
  exact isSome_of_live hit

/-- An erasure adds no key. -/
theorem isSome_of_erase {k : Bytes} (h : (v.erase key k).isSome) : (v k).isSome :=
  isSome_of_update (by simp) h

/-- A use adds no key. -/
theorem isSome_of_touch {k : Bytes} (h : (v.touch key now k).isSome) : (v k).isSome :=
  isSome_of_update (by simp) h

end Dict

variable [EntryPool]

namespace Store

/-- The capacity invariant. `presized` says that the cap was configured, and `b₀` is the bucket
count at construction, `m₀` the cap. -/
structure Cap (presized : Prop) (b₀ m₀ : Nat) (s : Store) : Prop where
  inv : s.table.Inv
  maxKeys_eq : s.maxKeys = m₀
  size_le : s.size ≤ s.maxKeys
  maxKeys_pos : 0 < s.maxKeys
  maxKeys_le : s.maxKeys ≤ kPoolCapacity
  samples_pos : s.lruSamples ≠ 0
  samples_le : s.lruSamples ≤ kLruSamplesMax
  roomy : presized → s.maxKeys ≤ s.bucketCount
  buckets : presized → s.bucketCount = b₀

namespace Cap

variable {presized : Prop} {b₀ m₀ : Nat} {s s' : Store}

/-- A call that replaces the table by one that is no larger, over the same buckets. -/
theorem shrink (h : Cap presized b₀ m₀ s) {t' : Table} (hinv : t'.Inv) (hsize : t'.size ≤ s.size)
    (hbc : t'.bucketCount = s.bucketCount) (ht : s'.table = t') (hmax : s'.maxKeys = s.maxKeys)
    (hsamples : s'.lruSamples = s.lruSamples) : Cap presized b₀ m₀ s' := by
  subst ht
  exact { inv := hinv
          maxKeys_eq := hmax.trans h.maxKeys_eq
          size_le := by rw [hmax]; exact Nat.le_trans hsize h.size_le
          maxKeys_pos := by rw [hmax]; exact h.maxKeys_pos
          maxKeys_le := by rw [hmax]; exact h.maxKeys_le
          samples_pos := by rw [hsamples]; exact h.samples_pos
          samples_le := by rw [hsamples]; exact h.samples_le
          roomy := fun hp => by rw [hmax, bucketCount, hbc]; exact h.roomy hp
          buckets := fun hp => hbc.trans (h.buckets hp) }

/-- A call that adds no key keeps the invariant. -/
theorem leaves {v : Dict} {n : Nat} (h : Cap presized b₀ m₀ s) (hs : Leaves s s' v n)
    (hsub : ∀ k, (v k).isSome → (s.view k).isSome) : Cap presized b₀ m₀ s' :=
  h.shrink hs.table.inv (hs.size_le h.inv hsub) hs.table.bucketCount rfl (by rw [hs.rest])
    (by rw [hs.rest])

/-- `evictOne` makes room, where there was something to evict. -/
theorem evictOne (h : Cap presized b₀ m₀ s) (hsize : s.size ≠ 0) (now : Int64) :
    ∃ s', s.evictOne now = some s' ∧ Cap presized b₀ m₀ s' ∧ s'.size < s.size ∧
      s'.maxKeys = s.maxKeys ∧ ∀ k, (s'.view k).isSome → (s.view k).isSome := by
  obtain ⟨r, out, rng', t', s', hevict, -, hinv, -, hbc, hout⟩ :=
    evictOne_spec h.inv hsize h.samples_pos h.samples_le now
  refine ⟨s', hevict, ?_⟩
  cases hout with
  | expired some_expired contents count =>
    obtain ⟨p, hp, hx⟩ := some_expired
    have hpos : 0 < (out.filter (s.table.expiredAt now)).length :=
      List.length_pos_of_mem (List.mem_filter.mpr ⟨hp, hx⟩)
    have hlt : t'.size < s.size := by omega
    refine ⟨h.shrink hinv (Nat.le_of_lt hlt) hbc rfl rfl rfl, hlt, rfl, fun k => ?_⟩
    refine Table.isSome_view_of_contents h.inv.toBase hinv.toBase fun p ki hc => ?_
    rw [contents] at hc
    split at hc
    · cases hc
    · exact hc
  | evicted q sampled fresh longest contents count =>
    have hlt : t'.size < s.size := by omega
    refine ⟨h.shrink hinv (Nat.le_of_lt hlt) hbc rfl rfl rfl, hlt, rfl, fun k => ?_⟩
    refine Table.isSome_view_of_contents h.inv.toBase hinv.toBase fun p ki hc => ?_
    rw [contents] at hc
    by_cases hp : p = q
    · rw [hp, Function.update_self] at hc
      cases hc
    · rwa [Function.update_of_ne hp] at hc

/-- After `makeRoom` there is room for one more key, unless the set was refused. -/
theorem makeRoom (h : Cap presized b₀ m₀ s) (now : Int64) :
    ∃ ok s', s.makeRoom now = some (ok, s') ∧ Cap presized b₀ m₀ s' ∧
      (ok = true → s'.size < s'.maxKeys) ∧ ∀ k, (s'.view k).isSome → (s.view k).isSome := by
  unfold Store.makeRoom
  by_cases hfull : s.size ≥ s.maxKeys
  · rw [if_pos hfull]
    cases s.policy with
    | kNoEviction => exact ⟨false, s, rfl, h, by simp, fun k hk => hk⟩
    | kAllKeysLru =>
      have hpos := h.maxKeys_pos
      obtain ⟨s', hevict, hcap, hlt, hmax, hsub⟩ := h.evictOne (by omega) now
      refine ⟨true, s', by simp [hevict], hcap, fun _ => ?_, hsub⟩
      have := h.size_le
      omega
  · rw [if_neg hfull]
    exact ⟨true, s, rfl, h, fun _ => by omega, fun k hk => hk⟩

/-- With room for one more key the insertion gets a pool block, and a presized table does not
grow. -/
theorem insertNew (h : Cap presized b₀ m₀ s) {key value : Bytes} (expireAtMs now : Int64)
    (hfit : key.length + value.length < 2 ^ 32) (habsent : s.view key = none)
    (hroom : s.size < s.maxKeys) :
    ∃ s', s.insertNew key value expireAtMs now = some s' ∧ Cap presized b₀ m₀ s' := by
  have hcap := h.maxKeys_le
  obtain ⟨t', hins, hinv, -, hsize, -, hbc⟩ :=
    insertNew_spec h.inv expireAtMs now hfit habsent (by omega)
  refine ⟨_, hins, ?_⟩
  have hgrow : presized → t'.bucketCount = s.bucketCount := by
    intro hp
    have := h.roomy hp
    rw [hbc, if_neg (by omega)]
  exact { inv := hinv
          maxKeys_eq := h.maxKeys_eq
          size_le := by show t'.size ≤ s.maxKeys; omega
          maxKeys_pos := h.maxKeys_pos
          maxKeys_le := h.maxKeys_le
          samples_pos := h.samples_pos
          samples_le := h.samples_le
          roomy := fun hp => by
            show s.maxKeys ≤ t'.bucketCount
            rw [hgrow hp]
            exact h.roomy hp
          buckets := fun hp => (hgrow hp).trans (h.buckets hp) }

/-- `set` is defined and keeps the invariant, under either policy. -/
theorem set (h : Cap presized b₀ m₀ s) {key value : Bytes} (expireAtMs now : Int64)
    (hfit : key.length + value.length < 2 ^ 32) :
    ∃ b s', s.set key value expireAtMs now = some (b, s') ∧ Cap presized b₀ m₀ s' := by
  by_cases hp : Past expireAtMs now
  · obtain ⟨s', hset, hs⟩ := set_past h.inv key value hp
    exact ⟨true, s', hset, h.leaves hs fun k => Dict.isSome_of_erase⟩
  · obtain ⟨r, s₁, hlook, hL⟩ := lookup_spec h.inv key now
    have h₁ := h.leaves hL.toLeaves fun k => Dict.isSome_of_purge
    rcases hL.cases with ⟨rfl, hlive⟩ | ⟨p, it, -, hlive, -⟩
    · obtain ⟨ok, s₂, hroom, h₂, hlt, hsub⟩ := h₁.makeRoom now
      rw [set_absent hlook hp, hroom]
      cases ok with
      | false => exact ⟨false, s₂, rfl, h₂⟩
      | true =>
        -- Making room adds no key, so the key is still absent.
        have habsent : s₂.view key = none := by
          rw [← Option.not_isSome_iff_eq_none]
          intro hsome
          have := hsub key hsome
          rw [hL.view_key, hlive] at this
          cases this
        obtain ⟨s', hins, h'⟩ := h₂.insertNew expireAtMs now hfit habsent (hlt rfl)
        exact ⟨true, s', by simp [hins], h'⟩
    · obtain ⟨s', hset, hs⟩ := set_present h.inv hfit hp hlive
      exact ⟨true, s', hset, h.leaves hs fun k => Dict.isSome_of_update fun _ =>
        Dict.isSome_of_live hlive⟩

/-- `find` is defined, and so is reading the value behind the pointer that it returns. -/
theorem find (h : Cap presized b₀ m₀ s) (key : Bytes) (now : Int64) (touch : Bool) :
    ∃ e s' v, s.find key now touch = some (e, s') ∧ s'.read e = some v ∧
      Cap presized b₀ m₀ s' := by
  obtain ⟨e, s', hfind, hs, he⟩ := find_spec h.inv key now touch
  refine ⟨e, s', _, hfind, read_spec hs.table.inv he, h.leaves hs fun k hk => ?_⟩
  cases touch with
  | true => exact Dict.isSome_of_purge (Dict.isSome_of_touch hk)
  | false => exact Dict.isSome_of_purge hk

/-- `erase` keeps the store within its cap. -/
theorem erase (h : Cap presized b₀ m₀ s) (key : Bytes) (now : Int64) :
    ∃ b s', s.erase key now = some (b, s') ∧ Cap presized b₀ m₀ s' := by
  obtain ⟨s', hrun, hs⟩ := erase_spec h.inv key now
  exact ⟨_, s', hrun, h.leaves hs fun k => Dict.isSome_of_erase⟩

/-- `setExpireAt` keeps the store within its cap. -/
theorem setExpireAt (h : Cap presized b₀ m₀ s) (key : Bytes) (expireAtMs now : Int64) :
    ∃ b s', s.setExpireAt key expireAtMs now = some (b, s') ∧ Cap presized b₀ m₀ s' := by
  obtain ⟨s', hrun, hs⟩ := setExpireAt_spec h.inv key expireAtMs now
  refine ⟨_, s', hrun, h.leaves hs fun k hk => ?_⟩
  split at hk
  · exact Dict.isSome_of_erase hk
  · refine Dict.isSome_of_update (fun hsome => ?_) hk
    rw [Option.isSome_map] at hsome
    obtain ⟨it, hit⟩ := Option.isSome_iff_exists.mp hsome
    exact Dict.isSome_of_live hit

/-- `ttlMs` keeps the store within its cap. -/
theorem ttlMs (h : Cap presized b₀ m₀ s) (key : Bytes) (now : Int64) :
    ∃ ms s', s.ttlMs key now = some (ms, s') ∧ Cap presized b₀ m₀ s' := by
  obtain ⟨s', hrun, hs⟩ := ttlMs_spec h.inv key now
  exact ⟨_, s', hrun, h.leaves hs fun k => Dict.isSome_of_purge⟩

/-- `clear` keeps the store within its cap. -/
theorem clear (h : Cap presized b₀ m₀ s) : ∃ s', s.clear = some s' ∧ Cap presized b₀ m₀ s' := by
  obtain ⟨t', hrun, hb⟩ := clear_spec h.inv
  have hempty : t'.size = 0 := by
    rw [← Table.card_keys hb.inv.toBase, Finset.card_eq_zero, Finset.eq_empty_iff_forall_notMem]
    intro k
    simp [Table.mem_keys hb.inv.toBase, hb.view]
  exact ⟨{ s with table := t', expireCursor := 0 }, hrun,
    h.shrink hb.inv (by omega) hb.bucketCount rfl rfl rfl⟩

/-- An expire cycle keeps the store within its cap. -/
theorem activeExpireCycle (h : Cap presized b₀ m₀ s) (now : Int64) (sampleLimit : Nat) :
    ∃ r s', s.activeExpireCycle now sampleLimit = some (r, s') ∧ Cap presized b₀ m₀ s' := by
  obtain ⟨r, t', cursor', hrun, hr⟩ := activeExpireCycle_spec h.inv now sampleLimit
  have hcount := hr.count
  have hle : t'.size ≤ s.table.size := by omega
  exact ⟨r,
    { s with table := t', expireCursor := cursor', expiredKeys := s.expiredKeys + r.reaped },
    hrun, h.shrink hr.inv hle hr.bucketCount rfl rfl rfl⟩

end Cap

/-- The contract of a call: what `set` is given adds up in `uint32_t`. -/
def Call.Fits : Call → Prop
  | .client op => op.Fits
  | .activeExpireCycle _ _ => True

/-- Whether the arguments of a call fit can be checked. -/
instance : DecidablePred Call.Fits
  | .client op => inferInstanceAs (Decidable op.Fits)
  | .activeExpireCycle _ _ => inferInstanceAs (Decidable True)

/-- The step lemma: every call is defined and keeps the capacity invariant. -/
theorem Cap.step {presized : Prop} {b₀ m₀ : Nat} {s : Store} (h : Cap presized b₀ m₀ s)
    {call : Call} (hfit : call.Fits) : ∃ s', call.run s = some s' ∧ Cap presized b₀ m₀ s' := by
  cases call with
  | activeExpireCycle now sampleLimit =>
    obtain ⟨r, s', hrun, hcap⟩ := h.activeExpireCycle now sampleLimit
    exact ⟨s', by simp [Call.run, hrun], hcap⟩
  | client op =>
    cases op with
    | find key now touch =>
      obtain ⟨e, s', v, hfind, hread, hcap⟩ := h.find key now touch
      exact ⟨s', by simp [Call.run, Op.run, hfind, hread], hcap⟩
    | set key value expireAtMs now =>
      obtain ⟨b, s', hset, hcap⟩ := h.set expireAtMs now hfit
      exact ⟨s', by simp [Call.run, Op.run, hset], hcap⟩
    | erase key now =>
      obtain ⟨b, s', hrun, hcap⟩ := h.erase key now
      exact ⟨s', by simp [Call.run, Op.run, hrun], hcap⟩
    | setExpireAt key expireAtMs now =>
      obtain ⟨b, s', hrun, hcap⟩ := h.setExpireAt key expireAtMs now
      exact ⟨s', by simp [Call.run, Op.run, hrun], hcap⟩
    | ttlMs key now =>
      obtain ⟨ms, s', hrun, hcap⟩ := h.ttlMs key now
      exact ⟨s', by simp [Call.run, Op.run, hrun], hcap⟩
    | clear =>
      obtain ⟨s', hrun, hcap⟩ := h.clear
      exact ⟨s', by simp [Call.run, Op.run, hrun], hcap⟩
    | size => exact ⟨s, rfl, h⟩

/-- The run lemma. -/
theorem Cap.run {presized : Prop} {b₀ m₀ : Nat} {s₀ : Store} (h : Cap presized b₀ m₀ s₀)
    {calls : List Call} (hfit : ∀ call ∈ calls, call.Fits) :
    ∃ s, calls.foldlM Call.run s₀ = some s ∧ Cap presized b₀ m₀ s :=
  foldlM_rule (f := Call.run) (l := calls) (fun _ => Cap presized b₀ m₀)
    (fun _ call _ _ hl h => h.step (hfit call (by simp [hl]))) h

/-- A store is built within its capacity. -/
theorem Cap.new {cfg : Config} {rd : UInt64} {s₀ : Store} (hmax : cfg.maxKeys ≤ kPoolCapacity)
    (hsamples : 1 ≤ cfg.lruSamples) (hsamples' : cfg.lruSamples ≤ 64)
    (hnew : Store.new cfg rd = some s₀) :
    Cap (cfg.maxKeys ≠ 0) s₀.bucketCount (resolveMaxKeys cfg.maxKeys) s₀ := by
  obtain ⟨hinv, -, hsize, -, hm, hs, hroomy⟩ := new_spec hnew
  obtain ⟨hpos, hcap⟩ := resolveMaxKeys_bounds hmax
  exact { inv := hinv
          maxKeys_eq := hm
          size_le := by omega
          maxKeys_pos := by rw [hm]; exact hpos
          maxKeys_le := by rw [hm]; exact hcap
          samples_pos := by omega
          samples_le := by rw [hs]; exact hsamples'
          roomy := fun hz => by rw [hm, resolveMaxKeys, if_neg hz]; exact hroomy hz
          buckets := fun _ => rfl }

/-- What the capacity invariant says of a state `s` that a store built as `s₀` reaches. -/
structure WithinCapacity (cfg : Config) (s₀ s : Store) : Prop where
  maxKeys_eq : s.maxKeys = resolveMaxKeys cfg.maxKeys
  size_le : s.size ≤ s.maxKeys
  /-- `set` calls `insert` for a key that its lookup did not find, once there is room. -/
  insert_some : ∀ key value now s₁ s₂, key.length + value.length < 2 ^ 32 →
    s.lookup key now = some (none, s₁) → s₁.makeRoom now = some (true, s₂) →
    ∃ p t', s₂.table.insert key value = some (some p, t')
  /-- `set` calls `evictOne` for such a key when the store is full. -/
  evict_nonempty : ∀ key now s₁, s.lookup key now = some (none, s₁) → s₁.size ≥ s₁.maxKeys →
    s₁.size ≠ 0
  buckets : cfg.maxKeys ≠ 0 → s.bucketCount = s₀.bucketCount

/-- What a client sees of a store within its cap. -/
theorem Cap.withinCapacity {cfg : Config} {s₀ s : Store}
    (h : Cap (cfg.maxKeys ≠ 0) s₀.bucketCount (resolveMaxKeys cfg.maxKeys) s) :
    WithinCapacity cfg s₀ s := by
  -- The store after a lookup that found nothing, where `set` goes on.
  have hlooked : ∀ {key now s₁}, s.lookup key now = some (none, s₁) →
      Cap (cfg.maxKeys ≠ 0) s₀.bucketCount (resolveMaxKeys cfg.maxKeys) s₁ ∧
        s₁.view key = none := by
    intro key now s₁ hlook
    obtain ⟨r, s', hlook', hL⟩ := lookup_spec h.inv key now
    rw [hlook] at hlook'
    cases hlook'
    refine ⟨h.leaves hL.toLeaves fun k => Dict.isSome_of_purge, ?_⟩
    rcases hL.cases with ⟨-, hlive⟩ | ⟨p, it, hr, -⟩
    · rw [hL.view_key, hlive]
    · cases hr
  refine ⟨h.maxKeys_eq, h.size_le, ?_, ?_, h.buckets⟩
  · intro key value now s₁ s₂ hfit hlook hroom
    obtain ⟨h₁, habsent⟩ := hlooked hlook
    obtain ⟨ok, s', hroom', h₂, hlt, hsub⟩ := h₁.makeRoom now
    rw [hroom] at hroom'
    cases hroom'
    have habsent₂ : s₂.table.view key = none := by
      rw [← Option.not_isSome_iff_eq_none]
      intro hsome
      have := hsub key hsome
      rw [habsent] at this
      cases this
    rcases Table.insert_spec h₂.inv hfit habsent₂ with ⟨hfull, -⟩ | ⟨p, t', hins, -⟩
    · have := hlt rfl
      have := h₂.maxKeys_le
      have hsize : s₂.size = kPoolCapacity := hfull
      omega
    · exact ⟨p, t', hins⟩
  · intro key now s₁ hlook hfull
    have := (hlooked hlook).1.maxKeys_pos
    omega

/-- Under either policy, every run of calls from construction on is defined and stays within
capacity: at most `maxKeys` keys, no insertion without a pool block, no eviction from an empty
table, and no growth of a presized bucket array. -/
theorem run_withinCapacity {cfg : Config} {rd : UInt64} {s₀ : Store} {calls : List Call}
    (hmax : cfg.maxKeys ≤ kPoolCapacity) (hsamples : 1 ≤ cfg.lruSamples)
    (hsamples' : cfg.lruSamples ≤ 64) (hnew : Store.new cfg rd = some s₀)
    (hfit : ∀ call ∈ calls, call.Fits) :
    ∃ s, calls.foldlM Call.run s₀ = some s ∧ WithinCapacity cfg s₀ s := by
  obtain ⟨s, hrun, hs⟩ := (Cap.new hmax hsamples hsamples' hnew).run hfit
  exact ⟨s, hrun, hs.withinCapacity⟩

omit [EntryPool] in
/-- A store of three keys: the fourth and the fifth key evict one each, and a sweep then takes the
one whose deadline has passed. -/
theorem run_withinCapacity_three : letI := slabPool
    let cfg : Config := { maxKeys := 3, seed := 7, initialBuckets := 4, policy := .kAllKeysLru }
    let calls : List Call := [.client (.set [1] [2] (-1) 10), .client (.set [2] [3] (-1) 20),
      .client (.set [3] [4] (-1) 21), .client (.set [4] [5] 40 22), .client (.set [5] [6] (-1) 24),
      .activeExpireCycle 41 20]
    ∃ s₀ s, Store.new cfg 0 = some s₀ ∧ calls.foldlM Call.run s₀ = some s ∧
      WithinCapacity cfg s₀ s ∧ s.size = 2 ∧ s.evictions = 2 ∧ s.expiredKeys = 1 := by
  let _ := slabPool
  intro cfg calls
  have hmax : cfg.maxKeys ≤ kPoolCapacity := by decide
  have hfit : ∀ call ∈ calls, call.Fits := by decide
  obtain ⟨s₀, s, hnew, hrun, hs⟩ := exists_run cfg 0 calls
    (fun _ s => decide (s.size = 2 ∧ s.evictions = 2 ∧ s.expiredKeys = 1)) (by decide +kernel)
  obtain ⟨s', hrun', hwithin⟩ := run_withinCapacity hmax (by decide) (by decide) hnew hfit
  obtain rfl : s = s' := Option.some.inj (hrun.symm.trans hrun')
  exact ⟨s₀, s, hnew, hrun, hwithin, of_decide_eq_true hs⟩

end Store

end TinyRedis

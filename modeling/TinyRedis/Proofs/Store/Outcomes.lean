import TinyRedis.Proofs.Store.Capacity

/-!
# `TinyRedis.Proofs.Store.Outcomes`: what a call does wherever it is defined

The specifications of the store's operations say that a call is defined and what it leaves. The
lemmas here start from a call that is defined, under any configuration. `Drops` is what the store
does to its entries on its own account: `lookup`, `evictOne` and the expire cycle only take entries
out, and count each of them once. `SetOutcome` lists the outcomes of `set`. From these, `Sound`
holds of every store that calls can reach (`Reachable.sound`).

* `lookup_drops`, `evictOne_drops`, `activeExpireCycle_drops`, `makeRoom_drops`: the four functions
  that remove entries unasked.
* `set_cases`: a `set` that has returned has one of its outcomes.
* `Turn`: a call as three steps: the store drops some entries, the caller takes some out, and one
  may come in.
* `Call.turn`: every call is a turn.
* `Reachable`, `Reachable.sound`, `Reachable.config`: what holds of every store that can be reached.

Nothing is asked of the configuration here. With a cap above the pool a call may be undefined, but
one that returns is as it should be; this is what the results about failing commands and about
evictions start from.
-/

set_option autoImplicit false

namespace TinyRedis

open Lib

/-- The key stores an item that has expired. -/
def Dict.expiredAt (v : Dict) (now : Int64) (key : Bytes) : Bool := (v key).any (·.expired now)

variable [EntryPool]

namespace Store

/-- The keys of the store, expired or not. -/
def keys (s : Store) : Finset Bytes := s.table.keys

/-- The keys are those of the dictionary. -/
theorem mem_keys {s : Store} (h : s.table.Inv) {k : Bytes} : k ∈ s.keys ↔ (s.view k).isSome :=
  Table.mem_keys h.toBase

/-- The number of the keys is the size. -/
theorem card_keys {s : Store} (h : s.table.Inv) : s.keys.card = s.size :=
  Table.card_keys h.toBase

/-- A store that has only lost items has lost keys. -/
theorem keys_subset_of_view {s s' : Store} (hinv : s.table.Inv) (hinv' : s'.table.Inv)
    (hview : ∀ k, s'.view k = s.view k ∨ s'.view k = none) : s'.keys ⊆ s.keys := by
  intro k hk
  rw [mem_keys hinv'] at hk
  rw [mem_keys hinv]
  rcases hview k with heq | hnone
  · rwa [← heq]
  · rw [hnone] at hk
    cases hk

/-- The keys that leave make up the difference of the sizes. -/
theorem card_gone_add_size {s s' : Store} (hinv : s.table.Inv) (hinv' : s'.table.Inv)
    (hsub : s'.keys ⊆ s.keys) : (s.keys \ s'.keys).card + s'.size = s.size := by
  rw [← card_keys hinv, ← card_keys hinv']
  exact Finset.card_sdiff_add_card_eq_card hsub

/-- Entries leave on the store's own account, at `now`: what stays is unchanged, and each entry
that leaves counts once, as an expiry if it had expired and as an eviction if not. -/
structure Drops (now : Int64) (s s' : Store) : Prop where
  inv : s'.table.Inv
  view : ∀ k, s'.view k = s.view k ∨ s'.view k = none
  evictions : s'.evictions
    = s.evictions + ((s.keys \ s'.keys).filter fun k => s.view.expiredAt now k = false).card
  expiredKeys : s'.expiredKeys
    = s.expiredKeys + ((s.keys \ s'.keys).filter fun k => s.view.expiredAt now k = true).card
  maxKeys : s'.maxKeys = s.maxKeys
  lruSamples : s'.lruSamples = s.lruSamples
  policy : s'.policy = s.policy

namespace Drops

variable {now : Int64} {s s' s'' : Store}

/-- Nothing is dropped. -/
theorem rfl (h : s.table.Inv) : Drops now s s :=
  ⟨h, fun _ => Or.inl (Eq.refl _), by simp, by simp, Eq.refl _, Eq.refl _, Eq.refl _⟩

/-- No key comes in. -/
theorem keys_subset (h : Drops now s s') (hinv : s.table.Inv) : s'.keys ⊆ s.keys :=
  keys_subset_of_view hinv h.inv h.view

/-- What was not there is not there afterwards. -/
theorem absent (h : Drops now s s') {k : Bytes} (hk : s.view k = none) : s'.view k = none := by
  rcases h.view k with heq | hnone
  · exact heq.trans hk
  · exact hnone

/-- A key that stays keeps its item. -/
theorem view_eq (h : Drops now s s') {k : Bytes} (hk : k ∈ s'.keys) : s'.view k = s.view k := by
  rcases h.view k with heq | hnone
  · exact heq
  · rw [mem_keys h.inv, hnone] at hk
    cases hk

/-- So does one that was not there: all that changes has left. -/
theorem view_of_stays (h : Drops now s s') (hinv : s.table.Inv) {k : Bytes}
    (hk : k ∉ s.keys \ s'.keys) : s'.view k = s.view k := by
  by_cases hmem : k ∈ s.keys
  · have hmem' : k ∈ s'.keys := by
      by_contra hnot
      exact hk (Finset.mem_sdiff.mpr ⟨hmem, hnot⟩)
    exact h.view_eq hmem'
  · rw [mem_keys hinv, Option.not_isSome_iff_eq_none] at hmem
    rw [hmem, h.absent hmem]

/-- The store gets no larger. -/
theorem size_le (h : Drops now s s') (hinv : s.table.Inv) : s'.size ≤ s.size := by
  rw [← card_keys h.inv, ← card_keys hinv]
  exact Finset.card_le_card (h.keys_subset hinv)

/-- Some entries are dropped, and then some more. -/
theorem trans (h : Drops now s s') (h' : Drops now s' s'') (hinv : s.table.Inv) :
    Drops now s s'' := by
  -- What leaves in the two steps are disjoint parts of what leaves in both.
  have hparts : s.keys \ s''.keys = (s.keys \ s'.keys) ∪ (s'.keys \ s''.keys) :=
    (Finset.sdiff_union_sdiff_cancel (h.keys_subset hinv) (h'.keys_subset h.inv)).symm
  have hdisjoint : Disjoint (s.keys \ s'.keys) (s'.keys \ s''.keys) :=
    Finset.disjoint_of_subset_right Finset.sdiff_subset Finset.sdiff_disjoint
  have hcount : ∀ b : Bool,
      ((s.keys \ s''.keys).filter fun k => s.view.expiredAt now k = b).card
        = ((s.keys \ s'.keys).filter fun k => s.view.expiredAt now k = b).card
          + ((s'.keys \ s''.keys).filter fun k => s'.view.expiredAt now k = b).card := by
    intro b
    have hsame : ((s'.keys \ s''.keys).filter fun k => s'.view.expiredAt now k = b)
        = (s'.keys \ s''.keys).filter fun k => s.view.expiredAt now k = b := by
      refine Finset.filter_congr fun k hk => ?_
      rw [Dict.expiredAt, Dict.expiredAt, h.view_eq (Finset.mem_sdiff.mp hk).1]
    rw [hsame, hparts, Finset.filter_union, Finset.card_union_of_disjoint]
    exact Finset.disjoint_filter_filter hdisjoint
  refine ⟨h'.inv, fun k => ?_, ?_, ?_, h'.maxKeys.trans h.maxKeys,
    h'.lruSamples.trans h.lruSamples, h'.policy.trans h.policy⟩
  · rcases h'.view k with heq | hnone
    · rw [heq]
      exact h.view k
    · exact Or.inr hnone
  · rw [h'.evictions, h.evictions, hcount, Nat.add_assoc]
  · rw [h'.expiredKeys, h.expiredKeys, hcount, Nat.add_assoc]

end Drops

/-- Where all that leaves had expired, or none of it, one counter moves and by the sizes. -/
theorem Drops.of_uniform {now : Int64} {s s' : Store} (hinv : s.table.Inv) (hinv' : s'.table.Inv)
    (hview : ∀ k, s'.view k = s.view k ∨ s'.view k = none) {b : Bool} {n : Nat}
    (hall : ∀ k, s'.view k ≠ s.view k → s.view.expiredAt now k = b) (hsize : s'.size + n = s.size)
    (hs' : s' = { s with
      rngState := s'.rngState, expireCursor := s'.expireCursor, table := s'.table
      evictions := s.evictions + if b then 0 else n
      expiredKeys := s.expiredKeys + if b then n else 0 }) : Drops now s s' := by
  have hsub := keys_subset_of_view hinv hinv' hview
  have hgone : ∀ k ∈ s.keys \ s'.keys, s.view.expiredAt now k = b := by
    intro k hk
    rw [Finset.mem_sdiff, mem_keys hinv, mem_keys hinv'] at hk
    exact hall k fun heq => hk.2 (by rw [heq]; exact hk.1)
  have hcard : (s.keys \ s'.keys).card = n := by
    have hleft := card_gone_add_size hinv hinv' hsub
    omega
  -- One of the two filters keeps all of it, the other nothing.
  have hcount : ∀ b' : Bool, ((s.keys \ s'.keys).filter fun k => s.view.expiredAt now k = b').card
      = if b' = b then n else 0 := by
    intro b'
    split
    · next hb =>
      rw [Finset.filter_true_of_mem (fun k hk => hb ▸ hgone k hk), hcard]
    · next hb =>
      rw [Finset.filter_false_of_mem (fun k hk heq => hb (heq.symm.trans (hgone k hk))),
        Finset.card_empty]
  refine ⟨hinv', hview, ?_, ?_, by rw [hs'], by rw [hs'], by rw [hs']⟩
  · rw [hcount, hs']
    cases b <;> rfl
  · rw [hcount, hs']
    cases b <;> rfl

/-! ### What the store does on its own account -/

/-- `lookup` changes nothing, or takes out the expired entry that it finds. -/
theorem lookup_cases {s s' : Store} (h : s.table.Inv) {key : Bytes} {now : Int64} {r : Option Ptr}
    (hlook : s.lookup key now = some (r, s')) :
    (s' = s ∧ s.view.expiredAt now key = false) ∨
      (s.view.expiredAt now key = true ∧ s'.size + 1 = s.size ∧
        s' = { s with table := s'.table, expiredKeys := s.expiredKeys + 1 }) := by
  rcases Table.find_cases h.toBase key with ⟨hfind, hview⟩ | ⟨p, it, hfind, hview, hc⟩
  · -- absent
    simp only [lookup, hfind, Option.bind_eq_bind, Option.bind_some, Option.pure_def,
      Option.some.injEq, Prod.mk.injEq] at hlook
    exact Or.inl ⟨hlook.2.symm, by rw [Dict.expiredAt, view, hview]; rfl⟩
  · obtain ⟨e, he, -, -, hexp, -⟩ := h.mem_eq hc
    have hexpired : s.view.expiredAt now key = e.expired now := by
      rw [Entry.expired_eq hexp, Dict.expiredAt, view, hview]
      rfl
    obtain ⟨t', ht', -, -, hcount, -⟩ := Table.remove_spec h hc
    simp only [lookup, hfind, he, Option.bind_eq_bind, Option.bind_some, ht', Option.pure_def]
      at hlook
    rw [hexpired]
    split at hlook
    · next hx =>
      cases hlook
      exact Or.inr ⟨hx, hcount, rfl⟩
    · next hx =>
      cases hlook
      exact Or.inl ⟨rfl, by simpa using hx⟩

/-- A lookup drops its key if it has expired. -/
theorem lookup_drops {s s' : Store} (h : s.table.Inv) {key : Bytes} {now : Int64} {r : Option Ptr}
    (hlook : s.lookup key now = some (r, s')) : Drops now s s' := by
  obtain ⟨r', s'', hlook', hL⟩ := lookup_spec h key now
  rw [hlook] at hlook'
  cases hlook'
  rcases lookup_cases h hlook with ⟨rfl, -⟩ | ⟨hx, hsize, hs'⟩
  · exact Drops.rfl h
  · -- The one key whose item changes is the expired one.
    have hview : s'.view = s.view.purge key now := hL.table.view
    have hlive : s.view.live key now = none := by
      cases hk : s.view key with
      | none => exact Dict.live_eq_none_of_none hk
      | some it =>
        rw [Dict.expiredAt, hk] at hx
        exact Dict.live_of_expired hk hx
    rw [Dict.purge_eq_erase hlive] at hview
    refine Drops.of_uniform h hL.table.inv (b := true) (n := 1) (fun k => ?_) (fun k hne => ?_)
      hsize (by rw [hs']; rfl)
    · by_cases hk : k = key
      · rw [hview, hk]
        exact Or.inr (Function.update_self ..)
      · rw [hview]
        exact Or.inl (Function.update_of_ne hk ..)
    · by_cases hk : k = key
      · rw [hk]
        exact hx
      · rw [hview] at hne
        exact absurd (Function.update_of_ne hk ..) hne

/-- Any number of scan steps drops what has expired. -/
theorem Drops.of_reaped {now : Int64} {s s' : Store} (h : s.table.Inv) {n : Nat}
    (hr : Reaped s.table now n s'.table)
    (hs' : s' = { s with
      rngState := s'.rngState, expireCursor := s'.expireCursor, table := s'.table
      expiredKeys := s.expiredKeys + n }) : Drops now s s' := by
  refine Drops.of_uniform h hr.inv (b := true) (fun k => ?_) (fun k hne => ?_) hr.count hs'
  · rcases hr.view h k with heq | ⟨hnone, -⟩
    · exact Or.inl heq
    · exact Or.inr hnone
  · rcases hr.view h k with heq | ⟨-, it, hit, hx⟩
    · exact absurd heq hne
    · rw [Dict.expiredAt, Store.view, hit]
      exact hx

/-- The blocks that `evictOne` takes out: the expired ones of the sample, or the one that idled
longest. -/
theorem evictOne_drops {s s' : Store} (h : s.table.Inv) {now : Int64}
    (hevict : s.evictOne now = some s') : Drops now s s' ∧ s'.size < s.size := by
  obtain ⟨out, rng', t', hretry, hinv, hseed, hbc, hout⟩ := evictOne_of_some h hevict
  cases hout with
  | expired some_expired contents count =>
    obtain ⟨p, hp, hx⟩ := some_expired
    have hpos : 0 < (out.filter (s.table.expiredAt now)).length :=
      List.length_pos_of_mem (List.mem_filter.mpr ⟨hp, hx⟩)
    refine ⟨Drops.of_reaped h ⟨hinv, fun p => ?_, count, hseed, hbc⟩ rfl, ?_⟩
    · rw [contents]
      split
      · next hp => exact Or.inr ⟨rfl, hp.2⟩
      · exact Or.inl rfl
    · show t'.size < s.size
      omega
  | evicted q sampled fresh longest contents count =>
    obtain ⟨-, r, hs⟩ := sampleRetry_eq_some _ _ hretry
    obtain ⟨-, -, hstored⟩ := Table.sample_spec h.toBase hs
    obtain ⟨k, it, hc⟩ := hstored q sampled
    have hview : t'.view = Function.update s.view k none :=
      Table.view_remove h.toBase hinv.toBase hc contents
    have hk : s.view k = some it := h.toBase.view_of_contents hc
    refine ⟨Drops.of_uniform h hinv (b := false) (fun k' => ?_) (fun k' hne' => ?_) count rfl, ?_⟩
    · show t'.view k' = _ ∨ t'.view k' = none
      by_cases heq : k' = k
      · rw [hview, heq]
        exact Or.inr (Function.update_self ..)
      · rw [hview]
        exact Or.inl (Function.update_of_ne heq ..)
    · have hk' : k' = k := by
        by_contra heq
        exact hne' (by show t'.view k' = _; rw [hview, Function.update_of_ne heq])
      rw [hk', Dict.expiredAt, hk, Option.any_some, ← Table.expiredAt_of_contents hc]
      exact fresh q sampled
    · show t'.size < s.size
      omega

/-- An expire cycle drops what has expired. -/
theorem activeExpireCycle_drops {s s' : Store} (h : s.table.Inv) {now : Int64} {sampleLimit : Nat}
    {r : ExpireCycleResult} (hcycle : s.activeExpireCycle now sampleLimit = some (r, s')) :
    Drops now s s' := by
  obtain ⟨r', t', cursor', hcycle', hr⟩ := activeExpireCycle_spec h now sampleLimit
  rw [hcycle] at hcycle'
  cases hcycle'
  exact Drops.of_reaped h hr rfl

/-! ### `set` -/

/-- Where `makeRoom` goes on, there was room, or `evictOne` has made some. -/
theorem makeRoom_cases {s s' : Store} {now : Int64} {ok : Bool}
    (hroom : s.makeRoom now = some (ok, s')) :
    (ok = true ∧ s' = s ∧ s.size < s.maxKeys) ∨
      (ok = false ∧ s' = s ∧ s.maxKeys ≤ s.size ∧ s.policy = .kNoEviction) ∨
      (ok = true ∧ s.evictOne now = some s' ∧ s.maxKeys ≤ s.size ∧ s.policy = .kAllKeysLru) := by
  unfold makeRoom at hroom
  split at hroom
  · next hfull =>
    cases hpolicy : s.policy with
    | kNoEviction =>
      rw [hpolicy] at hroom
      cases hroom
      exact Or.inr (Or.inl ⟨rfl, rfl, hfull, rfl⟩)
    | kAllKeysLru =>
      rw [hpolicy] at hroom
      simp only [Option.bind_eq_bind, Option.bind_eq_some_iff] at hroom
      obtain ⟨s₁, hevict, heq⟩ := hroom
      cases heq
      exact Or.inr (Or.inr ⟨rfl, hevict, hfull, rfl⟩)
  · next hroomy =>
    cases hroom
    exact Or.inl ⟨rfl, rfl, Nat.lt_of_not_le hroomy⟩

/-- Making room drops what a sample says. -/
theorem makeRoom_drops {s s' : Store} (h : s.table.Inv) {now : Int64} {ok : Bool}
    (hroom : s.makeRoom now = some (ok, s')) : Drops now s s' := by
  rcases makeRoom_cases hroom with ⟨-, rfl, -⟩ | ⟨-, rfl, -⟩ | ⟨-, hevict, -⟩
  · exact Drops.rfl h
  · exact Drops.rfl h
  · exact (evictOne_drops h hevict).1

/-- Where the insertion is defined, the pool had a block. -/
theorem insertNew_of_some {s s' : Store} (h : s.table.Inv) {key value : Bytes}
    {expireAtMs now : Int64} (hfit : key.length + value.length < 2 ^ 32)
    (habsent : s.view key = none) (hins : s.insertNew key value expireAtMs now = some s') :
    s.size < kPoolCapacity ∧ s'.table.Inv ∧ s' = { s with table := s'.table } ∧
      s'.view = Function.update s.view key (some (Dict.written none value expireAtMs now)) ∧
      s'.size = s.size + 1 := by
  have hroom : s.size < kPoolCapacity := by
    rcases Table.insert_spec h hfit habsent with ⟨-, hnull⟩ | ⟨p, t', -, hinv, -, -, hcount, -⟩
    · -- A full pool gives a null pointer, and the write through it is undefined.
      rw [insertNew, hnull] at hins
      cases hins
    · have hle := hinv.toBase.liveCount_le
      show s.table.liveCount < kPoolCapacity
      omega
  obtain ⟨t', hins', hinv, hview, hsize, -⟩ :=
    insertNew_spec h expireAtMs now hfit habsent hroom
  rw [hins] at hins'
  cases hins'
  exact ⟨hroom, hinv, rfl, hview, hsize⟩

/-- The outcomes of `set`. -/
inductive SetOutcome (s : Store) (key value : Bytes) (expireAtMs now : Int64) :
    Bool → Store → Prop where
  /-- A deadline that has passed erases the key. -/
  | past {s' : Store} (past : Past expireAtMs now)
      (leaves : Leaves s s' (s.view.erase key) (s.view.reaped key now)) :
      SetOutcome s key value expireAtMs now true s'
  /-- A live key is overwritten. -/
  | overwritten {s' : Store} {it : Item} (fresh : ¬ Past expireAtMs now)
      (live : s.view.live key now = some it)
      (leaves : Leaves s s' (Function.update s.view key
        (some (Dict.written (some it) value expireAtMs now))) (s.view.reaped key now)) :
      SetOutcome s key value expireAtMs now true s'
  /-- A new key is refused when the store is full and does not evict. -/
  | refused {s' : Store} (fresh : ¬ Past expireAtMs now) (absent : s.view.live key now = none)
      (looked : s.lookup key now = some (none, s')) (full : s'.maxKeys ≤ s'.size)
      (policy : s'.policy = .kNoEviction) :
      SetOutcome s key value expireAtMs now false s'
  /-- A new key is stored, once there is room. -/
  | inserted {s₁ s₂ s' : Store} (fresh : ¬ Past expireAtMs now)
      (absent : s.view.live key now = none) (looked : s.lookup key now = some (none, s₁))
      (room : s₁.makeRoom now = some (true, s₂)) (block : s₂.size < kPoolCapacity)
      (inv : s'.table.Inv) (rest : s' = { s₂ with table := s'.table })
      (absent₂ : s₂.view key = none)
      (view : s'.view
        = Function.update s₂.view key (some (Dict.written none value expireAtMs now)))
      (size : s'.size = s₂.size + 1) :
      SetOutcome s key value expireAtMs now true s'

/-- Every `set` that has returned has one of the outcomes. -/
theorem set_cases {s s' : Store} (h : s.table.Inv) {key value : Bytes} {expireAtMs now : Int64}
    (hfit : key.length + value.length < 2 ^ 32) {b : Bool}
    (hset : s.set key value expireAtMs now = some (b, s')) :
    SetOutcome s key value expireAtMs now b s' := by
  by_cases hpast : Past expireAtMs now
  · obtain ⟨s'', hset', hleaves⟩ := set_past h key value hpast
    rw [hset] at hset'
    cases hset'
    exact .past hpast hleaves
  obtain ⟨r, s₁, hlook, hL⟩ := lookup_spec h key now
  rcases hL.cases with ⟨rfl, hlive⟩ | ⟨p, it, -, hlive, -⟩
  · rw [set_absent hlook hpast] at hset
    simp only [Option.bind_eq_bind, Option.bind_eq_some_iff] at hset
    obtain ⟨⟨ok, s₂⟩, hroom, hset⟩ := hset
    cases ok with
    | false =>
      cases hset
      rcases makeRoom_cases hroom with ⟨hok, -⟩ | ⟨-, rfl, hfull, hpolicy⟩ | ⟨hok, -⟩
      · cases hok
      · exact .refused hpast hlive hlook hfull hpolicy
      · cases hok
    | true =>
      simp only [if_true, Option.bind_eq_some_iff] at hset
      obtain ⟨s₃, hins, heq⟩ := hset
      cases heq
      -- Making room adds no key.
      have hdrops := makeRoom_drops hL.table.inv hroom
      have habsent : s₂.view key = none := hdrops.absent (hL.view_key.trans hlive)
      obtain ⟨hblock, hinv, hrest, hview, hsize⟩ := insertNew_of_some hdrops.inv hfit habsent hins
      exact .inserted hpast hlive hlook hroom hblock hinv hrest habsent hview hsize
  · obtain ⟨s'', hset', hleaves⟩ := set_present h hfit hpast hlive
    rw [hset] at hset'
    cases hset'
    exact .overwritten hpast hlive hleaves

/-- The lookup of a key that is not stored changes nothing. -/
theorem lookup_absent {s : Store} (h : s.table.Inv) {key : Bytes} (habsent : s.view key = none)
    (now : Int64) : s.lookup key now = some (none, s) := by
  obtain ⟨r, s₁, hlook, hL⟩ := lookup_spec h key now
  obtain rfl : r = none := hL.eq_none (Dict.live_eq_none_of_none habsent)
  rcases lookup_cases h hlook with ⟨rfl, -⟩ | ⟨hx, -⟩
  · exact hlook
  · rw [Dict.expiredAt, habsent] at hx
    cases hx

/-- A new key below the cap is stored, while the pool has a block. -/
theorem set_below {s : Store} (h : s.table.Inv) {key value : Bytes} {expireAtMs now : Int64}
    (hfit : key.length + value.length < 2 ^ 32) (habsent : s.view key = none)
    (hpast : ¬ Past expireAtMs now) (hroom : s.size < s.maxKeys)
    (hblock : s.size < kPoolCapacity) :
    ∃ t', s.set key value expireAtMs now = some (true, { s with table := t' }) ∧ t'.Inv ∧
      t'.view = Function.update s.view key (some (Dict.written none value expireAtMs now)) ∧
      t'.size = s.size + 1 := by
  obtain ⟨t', hins, hinv, hview, hsize, -⟩ := insertNew_spec h expireAtMs now hfit habsent hblock
  refine ⟨t', ?_, hinv, hview, hsize⟩
  rw [set_absent (lookup_absent h habsent now) hpast, makeRoom, if_neg (Nat.not_le_of_lt hroom)]
  simp [hins]

/-! ### Calls -/

/-- The time of a call. The calls without one take no entry out on the store's account. -/
def Call.now : Call → Int64
  | .client op => op.now?.getD 0
  | .activeExpireCycle now _ => now

/-- The new key that the call stores. -/
def Call.inserted (s : Store) : Call → Finset Bytes
  | .client (.set key value expireAtMs now) =>
      if (s.set key value expireAtMs now).map Prod.fst = some true ∧ ¬ Past expireAtMs now ∧
        s.view.live key now = none then {key} else ∅
  | _ => ∅

/-- The live key that the call takes out because its caller asks for it. -/
def Call.requested (s : Store) : Call → Finset Bytes
  | .client (.set key _ expireAtMs now) =>
      if Past expireAtMs now ∧ (s.view.live key now).isSome then {key} else ∅
  | .client (.erase key now) =>
      if (s.erase key now).map Prod.fst = some true then {key} else ∅
  | .client (.setExpireAt key expireAtMs now) =>
      if expireAtMs < now ∧ (s.view.live key now).isSome then {key} else ∅
  | _ => ∅

/-- The keys that `clear` takes out. -/
def Call.cleared (s : Store) : Call → Finset Bytes
  | .client .clear => s.keys
  | _ => ∅

/-- A call that the store begins by dropping entries on its own account, which leaves `s₁`. Then the
call takes out the keys `out` and puts in the keys `in_`. -/
structure Turn (now : Int64) (s s₁ : Store) (out in_ : Finset Bytes) (s' : Store) : Prop where
  drops : Drops now s s₁
  inv : s'.table.Inv
  out_subset : out ⊆ s₁.keys
  in_disjoint : Disjoint in_ s₁.keys
  keys : s'.keys = (s₁.keys \ out) ∪ in_
  evictions : s'.evictions = s₁.evictions
  expiredKeys : s'.expiredKeys = s₁.expiredKeys
  maxKeys : s'.maxKeys = s₁.maxKeys
  lruSamples : s'.lruSamples = s₁.lruSamples
  policy : s'.policy = s₁.policy
  room : in_.Nonempty → s.size ≤ s.maxKeys → s'.size ≤ s'.maxKeys

/-- A call that drops entries and does nothing else. -/
theorem Drops.turn {now : Int64} {s s' : Store} (h : Drops now s s') : Turn now s s' ∅ ∅ s' where
  drops := h
  inv := h.inv
  out_subset := Finset.empty_subset _
  in_disjoint := Finset.disjoint_empty_left _
  keys := by simp
  evictions := Eq.refl _
  expiredKeys := Eq.refl _
  maxKeys := Eq.refl _
  lruSamples := Eq.refl _
  policy := Eq.refl _
  room hne := absurd hne Finset.not_nonempty_empty

/-- A call on one key, which it looks up first: it takes the key out if the key was live and is not
there afterwards. -/
theorem Leaves.turn {s s' : Store} (h : s.table.Inv) {key : Bytes} {now : Int64} {v : Dict}
    (hs : Leaves s s' v (s.view.reaped key now)) (hoff : ∀ k, k ≠ key → v k = s.view k)
    (hkey : (v key).isSome → (s.view.live key now).isSome) :
    ∃ s₁, Turn now s s₁
      (if (s.view.live key now).isSome ∧ v key = none then {key} else ∅) ∅ s' := by
  obtain ⟨r, s₁, hlook, hL⟩ := lookup_spec h key now
  have hmem₁ : ∀ k, k ∈ s₁.keys ↔ (s.view.purge key now k).isSome := by
    intro k
    rw [mem_keys hL.table.inv, view, hL.table.view]
  have hmem' : ∀ k, k ∈ s'.keys ↔ (v k).isSome := by
    intro k
    rw [mem_keys hs.table.inv, view, hs.table.view]
  refine ⟨s₁, lookup_drops h hlook, hs.table.inv, ?_, Finset.disjoint_empty_left _, ?_,
    by rw [hs.rest, hL.rest], by rw [hs.rest, hL.rest], by rw [hs.rest, hL.rest],
    by rw [hs.rest, hL.rest], by rw [hs.rest, hL.rest],
    fun hne => absurd hne Finset.not_nonempty_empty⟩
  · split
    · next hcond =>
      rw [Finset.singleton_subset_iff, hmem₁, Dict.purge_self]
      exact hcond.1
    · exact Finset.empty_subset _
  · ext k
    rw [Finset.union_empty, Finset.mem_sdiff, hmem₁, hmem']
    by_cases hk : k = key
    · subst hk
      rw [Dict.purge_self]
      cases hv : v k with
      | none => by_cases hlive : (s.view.live k now).isSome <;> simp [hlive]
      | some it => simp [hkey (by rw [hv]; rfl)]
    · rw [hoff k hk, Dict.purge, Function.update_of_ne hk]
      split <;> simp [hk]

/-- The new key of `set`. -/
theorem SetOutcome.turn {s s' : Store} (h : s.table.Inv) {key value : Bytes}
    {expireAtMs now : Int64} {b : Bool} (hset : SetOutcome s key value expireAtMs now b s') :
    ∃ s₁, Turn now s s₁
      (if Past expireAtMs now ∧ (s.view.live key now).isSome then {key} else ∅)
      (if b = true ∧ ¬ Past expireAtMs now ∧ s.view.live key now = none then {key} else ∅) s' := by
  cases hset with
  | past past leaves =>
    obtain ⟨s₁, hturn⟩ := leaves.turn h (fun k hk => Function.update_of_ne hk ..)
      (by simp [Dict.erase])
    refine ⟨s₁, ?_⟩
    simpa [past, Dict.erase] using hturn
  | overwritten fresh live leaves =>
    obtain ⟨s₁, hturn⟩ := leaves.turn h (fun k hk => Function.update_of_ne hk ..) (by simp [live])
    refine ⟨s₁, ?_⟩
    simpa [fresh, live] using hturn
  | refused fresh absent looked full policy =>
    refine ⟨s', ?_⟩
    simpa [absent] using (lookup_drops h looked).turn
  | @inserted s₁ s₂ _ fresh absent looked room block inv rest absent₂ view size =>
    have hlooked := lookup_drops h looked
    have hroom := makeRoom_drops hlooked.inv room
    refine ⟨s₂, ?_⟩
    rw [if_neg (fun hpast => fresh hpast.1), if_pos ⟨rfl, fresh, absent⟩]
    refine ⟨hlooked.trans hroom h, inv, Finset.empty_subset _, ?_, ?_, by rw [rest], by rw [rest],
      by rw [rest], by rw [rest], by rw [rest], fun _ => ?_⟩
    · rw [Finset.disjoint_singleton_left, mem_keys hroom.inv, absent₂]
      simp
    · ext k
      rw [mem_keys inv, view, Finset.sdiff_empty, Finset.mem_union, mem_keys hroom.inv,
        Finset.mem_singleton]
      by_cases hk : k = key <;> simp [hk]
    · -- There was room, or an eviction has made some.
      intro hle
      have hmax := hroom.maxKeys.trans hlooked.maxKeys
      have hmax' : s'.maxKeys = s₂.maxKeys := by rw [rest]
      have hle₁ := hlooked.size_le h
      rcases makeRoom_cases room with ⟨-, rfl, hlt⟩ | ⟨hok, -⟩ | ⟨-, hevict, -⟩
      · omega
      · cases hok
      · have hlt := (evictOne_drops hlooked.inv hevict).2
        omega

/-- `setExpireAt` with a deadline in the past takes a live key out. -/
theorem setExpireAt_turn {s s' : Store} (h : s.table.Inv) {key : Bytes} {expireAtMs now : Int64}
    {b : Bool} (hset : s.setExpireAt key expireAtMs now = some (b, s')) :
    ∃ s₁, Turn now s s₁
      (if expireAtMs < now ∧ (s.view.live key now).isSome then {key} else ∅) ∅ s' := by
  obtain ⟨s'', hset', hleaves⟩ := setExpireAt_spec h key expireAtMs now
  rw [hset] at hset'
  cases hset'
  obtain ⟨s₁, hturn⟩ := hleaves.turn h
    (fun k hk => by split <;> simp [Dict.erase, Function.update_of_ne hk])
    (by split <;> simp [Dict.erase])
  refine ⟨s₁, ?_⟩
  by_cases hpast : expireAtMs < now
  · simpa [Dict.erase, hpast] using hturn
  · rw [if_neg hpast, Function.update_self, if_neg (by simp [Option.isSome_iff_ne_none])] at hturn
    rw [if_neg fun hcond => hpast hcond.1]
    exact hturn

/-- `clear` takes every key out. -/
theorem clear_turn {s s' : Store} (h : s.table.Inv) (hclear : s.clear = some s') (now : Int64) :
    Turn now s s s.keys ∅ s' := by
  obtain ⟨t', hclear', hb⟩ := clear_spec h
  rw [hclear] at hclear'
  cases hclear'
  have hkeys : Store.keys { s with table := t', expireCursor := 0 } = ∅ := by
    refine Finset.eq_empty_of_forall_notMem fun k hk => ?_
    rw [mem_keys hb.inv, view, hb.view] at hk
    cases hk
  refine ⟨Drops.rfl h, hb.inv, subset_rfl, Finset.disjoint_empty_left _, ?_, rfl, rfl, rfl, rfl,
    rfl, fun hne => absurd hne Finset.not_nonempty_empty⟩
  rw [hkeys, Finset.sdiff_self, Finset.union_empty]

/-- What a call does, in terms of keys. -/
theorem Call.turn {s s' : Store} (h : s.table.Inv) {call : Call} (hfit : call.Fits)
    (hrun : call.run s = some s') :
    ∃ s₁, Turn call.now s s₁ (call.requested s ∪ call.cleared s) (call.inserted s) s' := by
  -- A cycle only drops. A client's call drops what it meets, and then does what it is asked to.
  cases call with
  | activeExpireCycle now sampleLimit =>
    simp only [Call.run, Option.bind_eq_bind, Option.bind_eq_some_iff] at hrun
    obtain ⟨⟨r, s₁⟩, hcycle, heq⟩ := hrun
    cases heq
    exact ⟨s₁, (activeExpireCycle_drops h hcycle).turn⟩
  | client op =>
    simp only [Call.run, Option.bind_eq_bind, Option.bind_eq_some_iff] at hrun
    obtain ⟨⟨reply, s₂⟩, hop, heq⟩ := hrun
    cases heq
    cases op with
    | find key now touch =>
      obtain ⟨s'', hop', hleaves⟩ := run_find h key now touch
      rw [hop] at hop'
      cases hop'
      obtain ⟨s₁, hturn⟩ := hleaves.turn h
        (fun k hk => by cases touch <;> simp [Dict.touch, Dict.purge, Function.update_of_ne hk])
        (by cases touch <;> simp [Dict.touch])
      refine ⟨s₁, ?_⟩
      rw [if_neg (by cases touch <;> simp [Dict.touch, Option.isSome_iff_ne_none])] at hturn
      exact hturn
    | set key value expireAtMs now =>
      simp only [Op.run, Option.bind_eq_bind, Option.bind_eq_some_iff] at hop
      obtain ⟨⟨b, s₂⟩, hset, heq⟩ := hop
      cases heq
      obtain ⟨s₁, hturn⟩ := (set_cases h hfit hset).turn h
      refine ⟨s₁, ?_⟩
      simpa [Call.requested, Call.cleared, Call.inserted, hset, Call.now, Op.now?] using hturn
    | erase key now =>
      obtain ⟨s'', herase, hleaves⟩ := erase_spec h key now
      simp only [Op.run, herase, Option.bind_eq_bind, Option.bind_some] at hop
      cases hop
      obtain ⟨s₁, hturn⟩ := hleaves.turn h (fun k hk => Function.update_of_ne hk ..)
        (by simp [Dict.erase])
      refine ⟨s₁, ?_⟩
      simpa [Call.requested, Call.cleared, Call.inserted, herase, Call.now, Op.now?, Dict.erase]
        using hturn
    | setExpireAt key expireAtMs now =>
      simp only [Op.run, Option.bind_eq_bind, Option.bind_eq_some_iff] at hop
      obtain ⟨⟨b, s₂⟩, hset, heq⟩ := hop
      cases heq
      obtain ⟨s₁, hturn⟩ := setExpireAt_turn h hset
      refine ⟨s₁, ?_⟩
      show Turn now s s₁ (_ ∪ ∅) ∅ s₂
      rw [Finset.union_empty]
      exact hturn
    | ttlMs key now =>
      obtain ⟨s'', httl, hleaves⟩ := ttlMs_spec h key now
      simp only [Op.run, httl, Option.bind_eq_bind, Option.bind_some] at hop
      cases hop
      obtain ⟨s₁, hturn⟩ := hleaves.turn h (fun k hk => Function.update_of_ne hk ..) (by simp)
      refine ⟨s₁, ?_⟩
      rw [Dict.purge_self, if_neg (by simp [Option.isSome_iff_ne_none])] at hturn
      exact hturn
    | clear =>
      simp only [Op.run, Option.bind_eq_bind, Option.bind_eq_some_iff] at hop
      obtain ⟨s₂, hclear, heq⟩ := hop
      cases heq
      refine ⟨s, ?_⟩
      show Turn _ s s (∅ ∪ s.keys) ∅ s₂
      rw [Finset.empty_union]
      exact clear_turn h hclear _
    | size =>
      cases hop
      exact ⟨s, (Drops.rfl h).turn⟩

/-! ### Reachable stores -/

/-- What holds of every store that calls can reach, whatever its configuration. -/
structure Sound (s : Store) : Prop where
  inv : s.table.Inv
  size_le : s.size ≤ s.maxKeys
  maxKeys_pos : 0 < s.maxKeys

/-- A turn keeps the store sound. -/
theorem Turn.sound {now : Int64} {s s₁ s' : Store} {out in_ : Finset Bytes}
    (h : Turn now s s₁ out in_ s') (hs : Sound s) : Sound s' := by
  have hmax : s'.maxKeys = s.maxKeys := h.maxKeys.trans h.drops.maxKeys
  refine ⟨h.inv, ?_, by rw [hmax]; exact hs.maxKeys_pos⟩
  rcases in_.eq_empty_or_nonempty with rfl | hne
  · -- Nothing was put in.
    have hsub : s'.keys ⊆ s.keys := by
      rw [h.keys, Finset.union_empty]
      exact Finset.sdiff_subset.trans (h.drops.keys_subset hs.inv)
    have hcard := Finset.card_le_card hsub
    rw [card_keys h.inv, card_keys hs.inv] at hcard
    rw [hmax]
    exact Nat.le_trans hcard hs.size_le
  · exact h.room hne hs.size_le

/-- A store that calls can reach from construction on, under the configuration `cfg`. -/
def Reachable (cfg : Config) (s : Store) : Prop :=
  ∃ (rd : UInt64) (s₀ : Store) (calls : List Call), Store.new cfg rd = some s₀ ∧
    (∀ call ∈ calls, call.Fits) ∧ calls.foldlM Call.run s₀ = some s

/-- A new store is sound. -/
theorem Sound.new {cfg : Config} {rd : UInt64} {s₀ : Store} (h : Store.new cfg rd = some s₀) :
    Sound s₀ := by
  obtain ⟨hinv, -, hsize, -, hmax, -⟩ := new_spec h
  have hpos := EntryPool.capacity_pos
  refine ⟨hinv, by omega, ?_⟩
  rw [hmax, resolveMaxKeys]
  split <;> omega

/-- The run lemma: every run that is defined keeps a store sound, and its configuration. -/
theorem Sound.run {s₀ s : Store} (h : Sound s₀) {calls : List Call}
    (hfit : ∀ call ∈ calls, call.Fits) (hrun : calls.foldlM Call.run s₀ = some s) :
    Sound s ∧ s.maxKeys = s₀.maxKeys ∧ s.lruSamples = s₀.lruSamples ∧ s.policy = s₀.policy := by
  refine foldlM_invariant (fun s => Sound s ∧ s.maxKeys = s₀.maxKeys ∧
    s.lruSamples = s₀.lruSamples ∧ s.policy = s₀.policy) ?_ hrun ⟨h, rfl, rfl, rfl⟩
  rintro s call s' hmem ⟨hs, hmax, hsamples, hpolicy⟩ hcall
  obtain ⟨s₁, hturn⟩ := Call.turn hs.inv (hfit call hmem) hcall
  exact ⟨hturn.sound hs, (hturn.maxKeys.trans hturn.drops.maxKeys).trans hmax,
    (hturn.lruSamples.trans hturn.drops.lruSamples).trans hsamples,
    (hturn.policy.trans hturn.drops.policy).trans hpolicy⟩

/-- Every store that can be reached is sound. -/
theorem Reachable.sound {cfg : Config} {s : Store} (h : Reachable cfg s) : Sound s := by
  obtain ⟨rd, s₀, calls, hnew, hfit, hrun⟩ := h
  exact ((Sound.new hnew).run hfit hrun).1

/-- A store that can be reached has the configuration it was built with. -/
theorem Reachable.config {cfg : Config} {s : Store} (h : Reachable cfg s) :
    s.maxKeys = resolveMaxKeys cfg.maxKeys ∧ s.lruSamples = cfg.lruSamples ∧
      s.policy = cfg.policy := by
  obtain ⟨rd, s₀, calls, hnew, hfit, hrun⟩ := h
  obtain ⟨-, -, -, hpolicy₀, hmax₀, hsamples₀, -⟩ := new_spec hnew
  obtain ⟨-, hmax, hsamples, hpolicy⟩ := (Sound.new hnew).run hfit hrun
  exact ⟨hmax.trans hmax₀, hsamples.trans hsamples₀, hpolicy.trans hpolicy₀⟩

/-- The first key that a store is given is stored, and is the only one there. -/
theorem exists_reachable_single {cfg : Config} (rd : UInt64) (hb : cfg.initialBuckets ≤ 2 ^ 63)
    (hm : cfg.maxKeys ≤ kPoolCapacity) {key value : Bytes} {expireAtMs now : Int64}
    (hfit : key.length + value.length < 2 ^ 32) (hpast : ¬ Past expireAtMs now) :
    ∃ s₀ s, Store.new cfg rd = some s₀ ∧ s₀.set key value expireAtMs now = some (true, s) ∧
      Reachable cfg s ∧ s.size = 1 ∧
      s.view = Function.update (fun _ => none) key
        (some (Dict.written none value expireAtMs now)) := by
  obtain ⟨s₀, hnew⟩ := new_isSome rd hb hm
  obtain ⟨hinv₀, hview₀, hsize₀, -⟩ := new_spec hnew
  have hmax := (Sound.new hnew).maxKeys_pos
  have hpool := EntryPool.capacity_pos
  obtain ⟨t, hset, -, hview, hsize⟩ := set_below hinv₀ hfit (congrFun hview₀ key) hpast (by omega)
    (by omega)
  have hreach : Reachable cfg { s₀ with table := t } := by
    refine ⟨rd, s₀, [.client (.set key value expireAtMs now)], hnew, fun call hcall => ?_, ?_⟩
    · rw [List.mem_singleton.mp hcall]
      exact hfit
    · simp [Call.run, Op.run, hset]
  refine ⟨s₀, _, hnew, hset, hreach, ?_, ?_⟩
  · show t.size = 1
    omega
  · rw [view, hview, hview₀]

end Store

end TinyRedis

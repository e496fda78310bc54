import TinyRedis.Lib.Run
import TinyRedis.Proofs.Store.Keyed
import TinyRedis.Proofs.Store.Sample

/-!
# `TinyRedis.Proofs.Store.Evict`: what `evictOne` removes

`evictOne` walks over a sample of distinct entries. It removes those that have expired, and keeps
the live one that has idled longest. `Swept` is the invariant of this walk. `evictOne_spec` reads
off the two outcomes: the expired entries of the sample are gone and count as expiries, or there
were none, and the entry that idled longest is gone and counts as an eviction.

* `Swept.expired`, `Swept.live`, `Swept.step`: one entry of the sample.
* `sweep_spec`: the whole sample.
* `Evicted`: the two outcomes.
* `evictOne_of_retry`: the outcome for a sample that has been drawn.
* `evictOne_of_some`, `evictOne_spec`: a call that has returned, and that a call returns.

The walk removes entries from the table that it walks over. It can, because the sample is a list of
blocks without repetitions: an entry that is still to be visited is not one that has been removed.
-/

set_option autoImplicit false

namespace TinyRedis

open Lib

variable [EntryPool]

namespace Table

/-- The block `p` stores an item that has expired. -/
def expiredAt (t : Table) (now : Int64) (p : Ptr) : Bool :=
  (t.contents p).any fun ki => ki.2.expired now

/-- How long the item of block `p` has gone unused. -/
def idleAt (t : Table) (now : Int64) (p : Ptr) : UInt32 :=
  ((t.contents p).map fun ki => clock32 now - ki.2.lruClock).getD 0

variable {t : Table} {p : Ptr} {k : Bytes} {it : Item}

/-- Whether an entry has expired is read off its item. -/
theorem expiredAt_of_contents (hc : t.contents p = some (k, it)) (now : Int64) :
    t.expiredAt now p = it.expired now := by
  rw [expiredAt, hc, Option.any_some]

/-- How long an entry has idled is read off its item. -/
theorem idleAt_of_contents (hc : t.contents p = some (k, it)) (now : Int64) :
    t.idleAt now p = clock32 now - it.lruClock := by
  rw [idleAt, hc, Option.map_some, Option.getD_some]

end Table

namespace Store

/-- The state of the candidate loop after the candidates `done` of the table `t₀`. -/
structure Swept (t₀ : Table) (n₀ : Nat) (now : Int64) (done : List Ptr) (r : EvictState) :
    Prop where
  inv : r.table.Inv
  contents : ∀ p, r.table.contents p
    = if p ∈ done ∧ t₀.expiredAt now p then none else t₀.contents p
  count : r.table.liveCount + (done.filter (t₀.expiredAt now)).length = t₀.liveCount
  hashSeed : r.table.hashSeed = t₀.hashSeed
  bucketCount : r.table.bucketCount = t₀.bucketCount
  expiredKeys : r.expiredKeys = n₀ + (done.filter (t₀.expiredAt now)).length
  flag : r.hasExpiredOne = done.any (t₀.expiredAt now)
  none_best : r.toEvict = none → ∀ p ∈ done, t₀.expiredAt now p
  best : ∀ q, r.toEvict = some q → q ∈ done ∧ t₀.expiredAt now q = false ∧
    ∀ p ∈ done, t₀.expiredAt now p = false → t₀.idleAt now p ≤ t₀.idleAt now q

/-- The entry in a block that the sweep has not removed. -/
theorem Swept.entry {t₀ : Table} {n₀ : Nat} {now : Int64} {done : List Ptr} {r : EvictState}
    (h : Swept t₀ n₀ now done r) {p : Ptr} {k : Bytes} {it : Item}
    (hc : t₀.contents p = some (k, it)) (hkeep : p ∉ done ∨ t₀.expiredAt now p = false) :
    ∃ e, r.table.mem p = some e ∧ r.table.contents p = some (k, it) ∧
      e.expired now = t₀.expiredAt now p ∧ idle e now = t₀.idleAt now p := by
  have hc' : r.table.contents p = some (k, it) := by
    rw [h.contents, if_neg, hc]
    rintro ⟨hmem, hx⟩
    rcases hkeep with hnot | hfresh
    · exact hnot hmem
    · rw [hfresh] at hx
      cases hx
  obtain ⟨e, he, -, -, hexp, hclock⟩ := h.inv.mem_eq hc'
  refine ⟨e, he, hc', ?_, ?_⟩
  · rw [Table.expiredAt_of_contents hc, Entry.expired_eq hexp]
  · rw [idle, Table.idleAt_of_contents hc, hclock]

/-- An expired candidate is removed and counted. -/
theorem Swept.expired {t₀ : Table} {n₀ : Nat} {now : Int64} {done : List Ptr} {r : EvictState}
    (h : Swept t₀ n₀ now done r) {p : Ptr} (hx : t₀.expiredAt now p = true) {t' : Table}
    (hinv : t'.Inv) (hcont : t'.contents = Function.update r.table.contents p none)
    (hlive : t'.liveCount + 1 = r.table.liveCount) (hseed : t'.hashSeed = r.table.hashSeed)
    (hbc : t'.bucketCount = r.table.bucketCount) :
    Swept t₀ n₀ now (done ++ [p])
      { r with table := t', expiredKeys := r.expiredKeys + 1, hasExpiredOne := true } := by
  have hcount := h.count
  refine ⟨hinv, ?_, ?_, hseed.trans h.hashSeed, hbc.trans h.bucketCount, ?_, ?_,
    fun hnone q hq => ?_, fun q hq => ?_⟩
  · rw [hcont]
    exact Table.contents_visit_drop h.contents hx
  · simp only [List.filter_append, List.length_append, List.filter_cons, hx, if_true,
      List.filter_nil, List.length_singleton]
    omega
  · simp [h.expiredKeys, hx, List.filter_append]
    omega
  · simp [hx]
  · rcases List.mem_append.mp hq with hq | hq
    · exact h.none_best hnone q hq
    · rw [List.mem_singleton.mp hq]
      exact hx
  · obtain ⟨hmem, hfresh, hmax⟩ := h.best q hq
    refine ⟨List.mem_append_left _ hmem, hfresh, fun p' hp' hfresh' => ?_⟩
    rcases List.mem_append.mp hp' with hp' | hp'
    · exact hmax p' hp' hfresh'
    · rw [List.mem_singleton.mp hp', hx] at hfresh'
      cases hfresh'

/-- A live candidate changes at most the best one: `q` is live and has idled no less than the
candidate and than the live ones before it. -/
theorem Swept.live {t₀ : Table} {n₀ : Nat} {now : Int64} {done : List Ptr} {r : EvictState}
    (h : Swept t₀ n₀ now done r) {p q : Ptr} (hx : t₀.expiredAt now p = false)
    (hq : q ∈ done ++ [p]) (hfresh : t₀.expiredAt now q = false)
    (hnew : t₀.idleAt now p ≤ t₀.idleAt now q)
    (hold : ∀ p' ∈ done, t₀.expiredAt now p' = false → t₀.idleAt now p' ≤ t₀.idleAt now q) :
    Swept t₀ n₀ now (done ++ [p]) { r with toEvict := some q } := by
  refine ⟨h.inv, Table.contents_visit_keep h.contents hx, ?_, h.hashSeed, h.bucketCount, ?_, ?_,
    nofun, ?_⟩
  · simpa [List.filter_append, hx] using h.count
  · simpa [List.filter_append, hx] using h.expiredKeys
  · simpa [hx] using h.flag
  · rintro _ ⟨⟩
    refine ⟨hq, hfresh, fun p' hp' hfresh' => ?_⟩
    rcases List.mem_append.mp hp' with hp' | hp'
    · exact hold p' hp' hfresh'
    · rw [List.mem_singleton.mp hp']
      exact hnew

/-- The step lemma of the candidate loop. -/
theorem Swept.step {t₀ : Table} {n₀ : Nat} {now : Int64} {done : List Ptr} {r : EvictState}
    (h : Swept t₀ n₀ now done r) (hlive : ∀ p ∈ done, ∃ k it, t₀.contents p = some (k, it))
    {p : Ptr} {k : Bytes} {it : Item} (hc : t₀.contents p = some (k, it)) (hp : p ∉ done) :
    ∃ r', evictStep now r p = some r' ∧ Swept t₀ n₀ now (done ++ [p]) r' := by
  obtain ⟨e, he, hcr, hexp, hidle⟩ := h.entry hc (Or.inl hp)
  cases hx : t₀.expiredAt now p with
  | true =>
    -- An expired candidate is removed and never a victim.
    obtain ⟨t', ht', hinv', hcont', hcount', hseed', hbc', -⟩ := Table.remove_spec h.inv hcr
    refine ⟨_, ?_, h.expired hx hinv' hcont' hcount' hseed' hbc'⟩
    simp [evictStep, he, hexp, hx, ht']
  | false =>
    cases hbest : r.toEvict with
    | none =>
      refine ⟨{ r with toEvict := some p }, by simp [evictStep, he, hexp, hx, hbest],
        h.live hx (by simp) hx (UInt32.le_refl _) fun p' hp' hfresh => ?_⟩
      rw [h.none_best hbest p' hp'] at hfresh
      cases hfresh
    | some q =>
      obtain ⟨hmem, hfresh, hmax⟩ := h.best q hbest
      obtain ⟨kq, itq, hcq⟩ := hlive q hmem
      obtain ⟨f, hf, -, -, hidleq⟩ := h.entry hcq (Or.inr hfresh)
      by_cases hlt : t₀.idleAt now q < t₀.idleAt now p
      · refine ⟨{ r with toEvict := some p },
          by simp [evictStep, he, hexp, hx, hbest, hf, hidle, hidleq, hlt],
          h.live hx (by simp) hx (UInt32.le_refl _) fun p' hp' hfresh' => ?_⟩
        exact UInt32.le_trans (hmax p' hp' hfresh') (UInt32.le_of_lt hlt)
      · -- The best candidate stays, so the state does.
        refine ⟨{ r with toEvict := some q }, ?_,
          h.live hx (by simp [hmem]) hfresh (UInt32.not_lt.mp hlt) hmax⟩
        simp [evictStep, he, hexp, hx, hbest, hf, hidle, hidleq, hlt]
        rw [← hbest]

/-- What the retry loop returns is a sample, and not an empty one. -/
theorem sampleRetry_eq_some {t : Table} {slots : Nat} {out : List Ptr} {rng' : UInt64} :
    ∀ (tries : Nat) (rngState : UInt64), sampleRetry t slots tries rngState = some (out, rng') →
      out ≠ [] ∧ ∃ r, t.sampleSome slots r = some (out, rng') := by
  intro tries
  induction tries with
  | zero =>
    intro rngState hretry
    cases hretry
  | succ tries ih =>
    intro rngState hretry
    simp only [sampleRetry, Option.bind_eq_bind, Option.bind_eq_some_iff] at hretry
    obtain ⟨⟨out', rng''⟩, hs, hretry⟩ := hretry
    split at hretry
    · exact ih rng'' hretry
    · next hlen =>
      cases hretry
      exact ⟨fun heq => hlen (by rw [heq]; rfl), rngState, hs⟩

/-- The two outcomes of `evictOne` on the sample `out`, with the table `t'` after it. -/
inductive Evicted (s : Store) (now : Int64) (out : List Ptr) (rng' : UInt64) (t' : Table) :
    Store → Prop where
  /-- The expired entries of the sample are removed, and count as expiries. -/
  | expired (some_expired : ∃ p ∈ out, s.table.expiredAt now p)
      (contents : ∀ p, t'.contents p
        = if p ∈ out ∧ s.table.expiredAt now p then none else s.table.contents p)
      (count : t'.size + (out.filter (s.table.expiredAt now)).length = s.size) :
      Evicted s now out rng' t' { s with
        rngState := rng', table := t'
        expiredKeys := s.expiredKeys + (out.filter (s.table.expiredAt now)).length }
  /-- No entry of the sample has expired. The one that idled longest is removed, and counts as an
  eviction. -/
  | evicted (q : Ptr) (sampled : q ∈ out) (fresh : ∀ p ∈ out, s.table.expiredAt now p = false)
      (longest : ∀ p ∈ out, s.table.idleAt now p ≤ s.table.idleAt now q)
      (contents : t'.contents = Function.update s.table.contents q none)
      (count : t'.size + 1 = s.size) :
      Evicted s now out rng' t' { s with
        rngState := rng', table := t', evictions := s.evictions + 1 }

/-- The candidate loop over a sample, by the rule of a fold. -/
theorem sweep_spec {t : Table} (h : t.Inv) {out : List Ptr} (hnodup : out.Nodup)
    (hstored : ∀ p ∈ out, ∃ k it, t.contents p = some (k, it)) (n₀ : Nat) (now : Int64) :
    ∃ st, out.foldlM (evictStep now)
        { table := t, expiredKeys := n₀, hasExpiredOne := false, toEvict := none } = some st ∧
      Swept t n₀ now out st := by
  refine foldlM_rule (f := evictStep now) (Swept t n₀ now) (l := out) ?_
    ⟨h, by simp, by simp, rfl, rfl, by simp, by simp, by simp, by simp⟩
  intro done p rest st hl hI
  obtain ⟨k, it, hc⟩ := hstored p (by simp [hl])
  refine hI.step (fun q hq => hstored q (by simp [hl, hq])) hc fun hmem => ?_
  rw [hl] at hnodup
  exact (List.nodup_append.mp hnodup).2.2 p hmem p (by simp) rfl

/-- A sweep that met no expired entry has changed nothing. -/
theorem Swept.unchanged {t₀ : Table} {n₀ : Nat} {now : Int64} {done : List Ptr} {r : EvictState}
    (h : Swept t₀ n₀ now done r) (hfresh : ∀ p ∈ done, t₀.expiredAt now p = false) :
    r.table.contents = t₀.contents ∧ r.table.liveCount = t₀.liveCount ∧ r.expiredKeys = n₀ := by
  have hnone : done.filter (t₀.expiredAt now) = [] :=
    List.filter_eq_nil_iff.mpr fun p hp => by simp [hfresh p hp]
  have hcount := h.count
  have hkeys := h.expiredKeys
  rw [hnone, List.length_nil, Nat.add_zero] at hcount hkeys
  refine ⟨?_, hcount, hkeys⟩
  funext p
  rw [h.contents, if_neg]
  rintro ⟨hp, hx⟩
  rw [hfresh p hp] at hx
  cases hx

/-- What `evictOne` does with the sample of the retry loop. -/
theorem evictOne_of_retry {s : Store} (h : s.table.Inv) {out : List Ptr} {rng' : UInt64}
    (hretry : sampleRetry s.table s.lruSamples (2 ^ 64) s.rngState = some (out, rng'))
    (hlen : out.length ≤ kLruSamplesMax) (now : Int64) :
    ∃ t' s', s.evictOne now = some s' ∧ t'.Inv ∧ t'.hashSeed = s.table.hashSeed ∧
      t'.bucketCount = s.table.bucketCount ∧ Evicted s now out rng' t' s' := by
  obtain ⟨hout, r, hs⟩ := sampleRetry_eq_some _ _ hretry
  obtain ⟨hnodup, -, hstored⟩ := Table.sample_spec h.toBase hs
  obtain ⟨st, hfold, hsw⟩ := sweep_spec h hnodup hstored s.expiredKeys now
  have hstart : s.evictOne now = (do
      let s' := { s with rngState := rng', table := st.table, expiredKeys := st.expiredKeys }
      if st.hasExpiredOne then return s'
      else
        let table ← s'.table.remove (← st.toEvict)
        return { s' with table, evictions := s'.evictions + 1 }) := by
    simp only [evictOne, hretry, Option.bind_eq_bind, Option.bind_some, hlen, guard_true,
      Option.pure_def, hfold]
  cases hflag : st.hasExpiredOne with
  | true =>
    refine ⟨st.table, _, ?_, hsw.inv, hsw.hashSeed, hsw.bucketCount,
      .expired ?_ hsw.contents hsw.count⟩
    · rw [hstart, hflag, hsw.expiredKeys]
      rfl
    · rw [hsw.flag] at hflag
      exact List.any_eq_true.mp hflag
  | false =>
    have hfresh : ∀ p ∈ out, s.table.expiredAt now p = false := by
      rw [hsw.flag, List.any_eq_false] at hflag
      exact fun p hp => Bool.eq_false_iff.mpr (hflag p hp)
    obtain ⟨hcont, hcount, hkeys⟩ := hsw.unchanged hfresh
    cases hbest : st.toEvict with
    | none =>
      -- Some candidate was live, so one of them is the best.
      obtain ⟨p, hp⟩ := List.exists_mem_of_ne_nil out hout
      exact absurd (hsw.none_best hbest p hp) (by simp [hfresh p hp])
    | some q =>
      obtain ⟨hmem, -, hlongest⟩ := hsw.best q hbest
      obtain ⟨k, it, hc⟩ := hstored q hmem
      obtain ⟨t', ht', hinv', hcont', hcount', hseed', hbc', -⟩ :=
        Table.remove_spec hsw.inv (hcont ▸ hc)
      refine ⟨t', _, ?_, hinv', hseed'.trans hsw.hashSeed, hbc'.trans hsw.bucketCount,
        .evicted q hmem hfresh (fun p hp => hlongest p hp (hfresh p hp)) (by rw [hcont', hcont])
          ?_⟩
      · rw [hstart, hflag, hbest, hkeys]
        simp [ht']
      · show t'.liveCount + 1 = s.table.liveCount
        omega

/-- Where `evictOne` is defined, the retry loop has returned a sample that fits the buffer. -/
theorem evictOne_of_some {s s' : Store} (h : s.table.Inv) {now : Int64}
    (hevict : s.evictOne now = some s') :
    ∃ out rng' t', sampleRetry s.table s.lruSamples (2 ^ 64) s.rngState = some (out, rng') ∧
      t'.Inv ∧ t'.hashSeed = s.table.hashSeed ∧ t'.bucketCount = s.table.bucketCount ∧
      Evicted s now out rng' t' s' := by
  have hdefined := hevict
  simp only [evictOne, Option.bind_eq_bind, Option.bind_eq_some_iff] at hdefined
  obtain ⟨⟨out, rng'⟩, hretry, ⟨⟩, hguard, -⟩ := hdefined
  have hlen : out.length ≤ kLruSamplesMax := by
    by_contra hlong
    simp [guard, hlong] at hguard
  obtain ⟨t', s'', hevict', hrest⟩ := evictOne_of_retry h hretry hlen now
  rw [hevict] at hevict'
  cases hevict'
  exact ⟨out, rng', t', hretry, hrest⟩

/-- With a sample size that fits the buffer, `evictOne` is defined on every table that holds
something. -/
theorem evictOne_spec {s : Store} (h : s.table.Inv) (hsize : s.size ≠ 0)
    (hslots : s.lruSamples ≠ 0) (hmax : s.lruSamples ≤ kLruSamplesMax) (now : Int64) :
    ∃ r out rng' t' s', s.evictOne now = some s' ∧
      s.table.sampleSome s.lruSamples r = some (out, rng') ∧ t'.Inv ∧
      t'.hashSeed = s.table.hashSeed ∧ t'.bucketCount = s.table.bucketCount ∧
      Evicted s now out rng' t' s' := by
  obtain ⟨r, out, rng', hretry, -, hs⟩ := sampleRetry_spec h.toBase hsize hslots s.rngState
  obtain ⟨-, hlen, -⟩ := Table.sample_spec h.toBase hs
  obtain ⟨t', s', hevict, hinv, hseed, hbc, hevicted⟩ :=
    evictOne_of_retry h hretry (Nat.le_trans hlen hmax) now
  exact ⟨r, out, rng', t', s', hevict, hs, hinv, hseed, hbc, hevicted⟩

end Store

end TinyRedis

import Mathlib.Data.List.Iterate
import TinyRedis.Proofs.Store.Outcomes
import TinyRedis.Proofs.Table.ScanCycle

/-!
# `TinyRedis.Proofs.Store.Sweep`: the effect of the expire cycle

`activeExpireCycle_effect` says what a cycle removes, reports and counts, and which buckets it has
swept. The log of a cycle is the orbit of the cursor (`LoopTrace.cursors`).

A cycle from the cursor `0` with quotas as large as the table sweeps all of it
(`PassTrace.sweeps_all`). Its first pass goes through the buckets in the order of their ranks, the
reversals of their numbers. Behind the rank of the cursor no expired entry is left. Ahead of it
there are at most as many entries as the sample quota still allows, so a pass that stops at this
quota has none ahead.

* `PassTrace.cursors`, `LoopTrace.cursors`: the cursors scanned, one after another.
* `LoopTrace.passes`: how many passes there are at most.
* `ahead`, `Scanned.ahead_le`: the entries that are still to come, and what a scan step takes off.
* `LoopTrace.sweeps_table`: a full sweep, for a cycle.
* `ReapedAt.mem_gone_iff`, `ReapedAt.card_gone`: what is gone, and that it is counted.

With smaller quotas a cycle sweeps a part of the table and goes on from there the next time; that
this comes to an end is the subject of `TinyRedis.Proofs.Store.Reclaim`.
-/

set_option autoImplicit false

namespace TinyRedis

open Lib

variable [EntryPool]

namespace Store

/-! ### The cursors of a cycle -/

/-- The log of a pass is the orbit of its cursor. -/
theorem PassTrace.cursors {now : Int64} {sampleLimit buckets cursor cursor' : Nat} {t t' : Table}
    {c c' : PassCount} {log : List Nat} {w : Bool}
    (h : PassTrace now sampleLimit buckets t cursor c log t' cursor' c' w) (hinv : t.Inv) :
    ∃ steps, log = List.iterate (nextCursor · (t.bucketCount - 1)) cursor steps ∧
      cursor' = (nextCursor · (t.bucketCount - 1))^[steps] cursor := by
  induction h with
  | bucketQuota => exact ⟨0, rfl, rfl⟩
  | sampleQuota _ => exact ⟨0, rfl, rfl⟩
  | wrapped _ scan =>
    obtain ⟨hnext, -⟩ := scanExpire_of_some hinv scan
    exact ⟨1, rfl, hnext⟩
  | scanned _ scan _ _ ih =>
    obtain ⟨rfl, hinv₁, hsc⟩ := scanExpire_of_some hinv scan
    obtain ⟨steps, hlog, hcursor⟩ := ih hinv₁
    rw [hsc.bucketCount] at hlog hcursor
    exact ⟨steps + 1, by rw [hlog, List.iterate], hcursor⟩

/-- The cursors of a cycle are those of its passes, one after another. -/
theorem LoopTrace.cursors {now : Int64} {sampleLimit maxBuckets left : Nat} {s s' : Store}
    {r r' : ExpireCycleResult} {log : List Nat}
    (h : LoopTrace now sampleLimit maxBuckets left s r log r' s') (hinv : s.table.Inv) :
    ∃ steps, log = List.iterate (nextCursor · (s.bucketCount - 1)) s.expireCursor steps ∧
      s'.expireCursor = (nextCursor · (s.bucketCount - 1))^[steps] s.expireCursor := by
  induction h with
  | passQuota => exact ⟨0, rfl, rfl⟩
  | stopped pass _ => exact pass.cursors hinv
  | @again _ s _ _ _ _ _ t cursor c _ pass _ _ ih =>
    obtain ⟨n, hreap, -⟩ := pass.reapedAt hinv
    obtain ⟨steps, hlog, hcursor⟩ := pass.cursors hinv
    obtain ⟨steps', hlog', hcursor'⟩ := ih hreap.inv
    have hcount : (s.afterPass t cursor c).bucketCount = s.bucketCount := hreap.bucketCount
    have hstart : (s.afterPass t cursor c).expireCursor
        = (nextCursor · (s.bucketCount - 1))^[steps] s.expireCursor := hcursor
    rw [hcount, hstart] at hlog' hcursor'
    refine ⟨steps + steps', ?_, ?_⟩
    · rw [List.iterate_add, ← hlog']
      exact congrArg (· ++ _) hlog
    · rw [hcursor', Nat.add_comm, Function.iterate_add_apply]

/-- A cycle makes a pass, and no more than it may. -/
theorem LoopTrace.passes {now : Int64} {sampleLimit maxBuckets left : Nat} {s s' : Store}
    {r r' : ExpireCycleResult} {log : List Nat}
    (h : LoopTrace now sampleLimit maxBuckets left s r log r' s') :
    r.passes + min 1 left ≤ r'.passes ∧ r'.passes ≤ r.passes + left := by
  induction h with
  | passQuota => exact ⟨Nat.le_refl _, Nat.le_refl _⟩
  | stopped _ _ =>
    dsimp only
    omega
  | again _ _ _ ih =>
    dsimp only at ih
    omega

/-! ### A full sweep -/

/-- In a table of `2 ^ b` buckets, a cursor stands at a key when their ranks are equal. -/
theorem chainedAt_iff_rank {t : Table} {b : Nat} (hb : t.bucketCount = 2 ^ b) {cursor : Nat}
    {k : Bytes} : ChainedAt t cursor k ↔ Scan.rank b t.hashSeed k = revBits b cursor := by
  rw [ChainedAt, Table.bucketOf, hb, Nat.and_two_pow_sub_one_eq_mod,
    Nat.and_two_pow_sub_one_eq_mod, Scan.rank, revBits_eq_iff]

/-- A chain has no more blocks than there are keys in its bucket. -/
theorem length_chain_le {t : Table} (h : t.Base) {cursor : Nat} {keys : Finset Bytes}
    (hkeys : ∀ k ∈ t.keys, ChainedAt t cursor k → k ∈ keys) :
    (t.chain (cursor % t.bucketCount)).length ≤ keys.card := by
  have hstored : ∀ p ∈ t.chain (cursor % t.bucketCount), ∃ k it,
      t.contents p = some (k, it) ∧ t.keyAt p = k ∧ k ∈ keys := by
    intro p hp
    obtain ⟨k, it, hc, hat⟩ := (mem_chain_iff_chainedAt h).mp hp
    have hk : k ∈ t.keys := (Table.mem_keys h).mpr (by rw [h.view_of_contents hc]; rfl)
    exact ⟨k, it, hc, by rw [Table.keyAt, hc]; rfl, hkeys k hk hat⟩
  have hnodup : ((t.chain (cursor % t.bucketCount)).map t.keyAt).Nodup := by
    refine (h.chain_nodup (Nat.mod_lt cursor h.bucketCount_pos)).map_on fun p hp q hq heq => ?_
    obtain ⟨k, it, hc, hk, -⟩ := hstored p hp
    obtain ⟨k', it', hc', hk', -⟩ := hstored q hq
    obtain rfl : k = k' := hk.symm.trans (heq.trans hk')
    exact h.contents_inj hc hc'
  rw [← List.length_map t.keyAt, ← List.toFinset_card_of_nodup hnodup]
  refine Finset.card_le_card fun k hk => ?_
  obtain ⟨p, hp, rfl⟩ := List.mem_map.mp (List.mem_toFinset.mp hk)
  obtain ⟨k', -, -, rfl, hmem⟩ := hstored p hp
  exact hmem

/-- The keys of rank `rank` or more. -/
def ahead (t : Table) (b rank : Nat) : Finset Bytes :=
  t.keys.filter fun k => rank ≤ Scan.rank b t.hashSeed k

/-- The keys that are ahead of a rank. -/
theorem mem_ahead {t : Table} (h : t.Base) {b rank : Nat} {k : Bytes} :
    k ∈ ahead t b rank ↔ (t.view k).isSome ∧ rank ≤ Scan.rank b t.hashSeed k := by
  rw [ahead, Finset.mem_filter, Table.mem_keys h]

/-- A scan samples the keys that it leaves behind. -/
theorem Scanned.ahead_le {t t' : Table} {c c' : PassCount} {now : Int64} {cursor b : Nat}
    (h : Scanned t c now (t.chain (cursor % t.bucketCount)) t' c') (hinv : t.Inv)
    (hinv' : t'.Inv) (hb : t.bucketCount = 2 ^ b) :
    c'.sampled + (ahead t' b (revBits b cursor + 1)).card
      ≤ c.sampled + (ahead t b (revBits b cursor)).card := by
  have hsub : ahead t' b (revBits b cursor + 1) ⊆ ahead t b (revBits b cursor) := by
    intro k hk
    obtain ⟨hview, hrank⟩ := (mem_ahead hinv'.toBase).mp hk
    obtain ⟨it, hit⟩ := Option.isSome_iff_exists.mp hview
    rw [h.hashSeed] at hrank
    have hold := (((h.reapedAt hinv hinv').kept k it).mp hit).1
    exact (mem_ahead hinv.toBase).mpr ⟨by rw [hold]; rfl, by omega⟩
  -- The keys of the bucket itself have the rank of the cursor.
  have hchain : (t.chain (cursor % t.bucketCount)).length
      ≤ (ahead t b (revBits b cursor) \ ahead t' b (revBits b cursor + 1)).card := by
    refine length_chain_le hinv.toBase fun k hk hat => ?_
    have hrank := (chainedAt_iff_rank hb).mp hat
    rw [Finset.mem_sdiff, mem_ahead hinv.toBase, mem_ahead hinv'.toBase, h.hashSeed]
    exact ⟨⟨(Table.mem_keys hinv.toBase).mp hk, by omega⟩, fun hlater => by omega⟩
  have hcard := Finset.card_sdiff_add_card_eq_card hsub
  have hsampled := congrArg PassCount.sampled h.counted
  dsimp only at hsampled
  omega

/-- A pass with quotas as large as what is ahead of its cursor leaves nothing expired there. -/
theorem PassTrace.sweeps_all {now : Int64} {sampleLimit buckets cursor cursor' b : Nat}
    {t t' : Table} {c c' : PassCount} {log : List Nat} {w : Bool}
    (h : PassTrace now sampleLimit buckets t cursor c log t' cursor' c' w) (hinv : t.Inv)
    (hb : t.bucketCount = 2 ^ b) (hwidth : b ≤ 64)
    (hbuckets : 2 ^ b ≤ revBits b cursor + buckets)
    (hsamples : c.sampled + (ahead t b (revBits b cursor)).card ≤ sampleLimit)
    {k : Bytes} {it : Item} (hk : t'.view k = some it)
    (hrank : revBits b cursor ≤ Scan.rank b t.hashSeed k) : it.expired now = false := by
  induction h with
  | @bucketQuota _ cursor _ =>
    have hlt := revBits_lt b cursor
    omega
  | sampleQuota reached =>
    have hmem : k ∈ ahead _ b _ := (mem_ahead hinv.toBase).mpr ⟨by rw [hk]; rfl, hrank⟩
    have hpos := Finset.card_pos.mpr ⟨k, hmem⟩
    omega
  | @wrapped _ t _ cursor _ _ _ scan =>
    obtain ⟨hnext, hinv₁, hsc⟩ := scanExpire_of_some hinv scan
    rw [hb] at hnext
    -- The last rank is that of the cursor.
    have hlast := (nextCursor_eq_zero_iff hwidth cursor).mp hnext.symm
    have hlt := revBits_lt b (Table.hash32 t.hashSeed k).toNat
    have hat : ChainedAt t cursor k := (chainedAt_iff_rank hb).mpr (by
      rw [Scan.rank] at hrank ⊢
      omega)
    exact (hsc.reapedAt hinv hinv₁).expired_eq_false hk (List.mem_singleton_self cursor) hat
  | @scanned _ t _ _ cursor _ _ _ _ _ _ _ _ scan goes rest ih =>
    obtain ⟨rfl, hinv₁, hsc⟩ := scanExpire_of_some hinv scan
    rw [hb] at goes
    have hstep := revBits_nextCursor hwidth goes
    rcases Nat.lt_or_eq_of_le hrank with hlater | hhere
    · have hroom := hsc.ahead_le hinv hinv₁ hb
      refine ih hinv₁ (hsc.bucketCount.trans hb) ?_ ?_ hk ?_
      · rw [hb, hstep]
        omega
      · rw [hb, hstep]
        omega
      · rw [hb, hstep, hsc.hashSeed]
        exact hlater
    · obtain ⟨n, hrest, -⟩ := rest.reapedAt hinv₁
      exact (hsc.reapedAt hinv hinv₁).expired_eq_false ((hrest.kept k it).mp hk).1
        (List.mem_singleton_self cursor) ((chainedAt_iff_rank hb).mpr hhere.symm)

/-- A pass from the cursor `0`, with quotas as large as the table, leaves nothing expired. -/
theorem PassTrace.sweeps_table {now : Int64} {sampleLimit buckets cursor' : Nat} {t t' : Table}
    {c' : PassCount} {log : List Nat} {w : Bool}
    (h : PassTrace now sampleLimit buckets t 0 ⟨0, 0⟩ log t' cursor' c' w) (hinv : t.Inv)
    (hsamples : t.size ≤ sampleLimit) (hbuckets : t.bucketCount ≤ buckets)
    (hwidth : t.bucketCount ≤ 2 ^ 64) {k : Bytes} {it : Item} (hk : t'.view k = some it) :
    it.expired now = false := by
  obtain ⟨b, hb⟩ := hinv.pow2
  have hb64 : b ≤ 64 := (Nat.pow_le_pow_iff_right (by decide)).mp (hb ▸ hwidth)
  have hahead : (ahead t b (revBits b 0)).card ≤ t.size := by
    rw [← Table.card_keys hinv.toBase]
    exact Finset.card_filter_le _ _
  refine h.sweeps_all hinv hb hb64 ?_ ?_ hk ?_
  · rw [← hb]
    omega
  · rw [Nat.zero_add]
    exact hahead.trans hsamples
  · rw [revBits_zero]
    exact Nat.zero_le _

/-- Later passes put nothing back. -/
theorem LoopTrace.sweeps_table {now : Int64} {sampleLimit maxBuckets left : Nat} {s s' : Store}
    {r r' : ExpireCycleResult} {log : List Nat}
    (h : LoopTrace now sampleLimit maxBuckets (left + 1) s r log r' s') (hinv : s.table.Inv)
    (hcursor : s.expireCursor = 0) (hsamples : s.size ≤ sampleLimit)
    (hbuckets : s.bucketCount ≤ maxBuckets) (hwidth : s.bucketCount ≤ 2 ^ 64) {k : Bytes}
    {it : Item} (hk : s'.view k = some it) : it.expired now = false := by
  cases h with
  | stopped pass stop =>
    rw [hcursor] at pass
    exact pass.sweeps_table hinv hsamples hbuckets hwidth hk
  | again pass goes rest =>
    obtain ⟨n, hreap, -⟩ := pass.reapedAt hinv
    obtain ⟨m, hrest, -⟩ := rest.reapedAt hreap.inv
    rw [hcursor] at pass
    exact pass.sweeps_table hinv hsamples hbuckets hwidth ((hrest.kept k it).mp hk).1

/-! ### The effect of a cycle -/

/-- The keys that leave are the expired ones of the buckets scanned. -/
theorem ReapedAt.mem_gone_iff {s s' : Store} {now : Int64} {log : List Nat} {n : Nat}
    (h : ReapedAt s.table now log n s'.table) (hinv : s.table.Inv) {k : Bytes} :
    k ∈ s.keys \ s'.keys ↔ ∃ it, s.view k = some it ∧ it.expired now = true ∧
      ∃ cursor ∈ log, ChainedAt s.table cursor k := by
  rw [Finset.mem_sdiff, mem_keys hinv, mem_keys h.inv]
  constructor
  · rintro ⟨hk, hgone⟩
    obtain ⟨it, hit⟩ := Option.isSome_iff_exists.mp hk
    by_contra hnot
    have hkept : s'.view k = some it := (h.kept k it).mpr
      ⟨hit, fun hx cursor hmem hat => hnot ⟨it, hit, hx, cursor, hmem, hat⟩⟩
    rw [hkept] at hgone
    exact hgone Option.isSome_some
  · rintro ⟨it, hit, hx, cursor, hmem, hat⟩
    refine ⟨by rw [hit]; rfl, fun hk' => ?_⟩
    obtain ⟨it', hit'⟩ := Option.isSome_iff_exists.mp hk'
    obtain ⟨hold, hfree⟩ := (h.kept k it').mp hit'
    obtain rfl : it' = it := Option.some.inj (hold.symm.trans hit)
    exact hfree hx cursor hmem hat

/-- What is not gone is as it was. -/
theorem ReapedAt.view_of_not_gone {s s' : Store} {now : Int64} {log : List Nat} {n : Nat}
    (h : ReapedAt s.table now log n s'.table) (hinv : s.table.Inv) {k : Bytes}
    (hk : k ∉ s.keys \ s'.keys) : s'.view k = s.view k := by
  rcases h.toReaped.view hinv k with heq | ⟨hnone, it, hit, -⟩
  · exact heq
  · refine absurd ?_ hk
    rw [Finset.mem_sdiff, mem_keys hinv, mem_keys h.inv]
    exact ⟨by rw [view, hit]; rfl, by rw [view, hnone]; exact Bool.false_ne_true⟩

/-- As many keys are gone as the cycle reports. -/
theorem ReapedAt.card_gone {s s' : Store} {now : Int64} {log : List Nat} {n : Nat}
    (h : ReapedAt s.table now log n s'.table) (hinv : s.table.Inv) :
    (s.keys \ s'.keys).card = n := by
  have hsub : s'.keys ⊆ s.keys := keys_subset_of_view hinv h.inv fun k =>
    (h.toReaped.view hinv k).imp_right And.left
  have hcard := card_gone_add_size hinv h.inv hsub
  have hcount : s'.size + n = s.size := h.count
  omega

/-- A cycle over any reachable store. The keys that leave are exactly the expired ones of the
buckets that the cursor has stepped over. Nothing else changes in the table, and no eviction is
counted. The cycle reports the number of keys that left and takes it off the size and onto the
expired keys. From the cursor `0`, with a sample limit as large as the store and a bucket quota
as large as the table, every expired key leaves. -/
theorem activeExpireCycle_effect {cfg : Config} {s : Store} (hreach : Reachable cfg s)
    (now : Int64) {sampleLimit : Nat} (hlimit : sampleLimit * 20 < 2 ^ 64) :
    ∃ r s' log, s.activeExpireCycle now sampleLimit = some (r, s') ∧
      LoopTrace now sampleLimit (sampleLimit * 20) kMaxPasses s ⟨0, 0⟩ log r s' ∧
      (∃ steps, log = List.iterate (nextCursor · (s.bucketCount - 1)) s.expireCursor steps ∧
        s'.expireCursor = (nextCursor · (s.bucketCount - 1))^[steps] s.expireCursor) ∧
      (∀ k, k ∈ s.keys \ s'.keys ↔ ∃ it, s.view k = some it ∧ it.expired now = true ∧
        ∃ cursor ∈ log, ChainedAt s.table cursor k) ∧
      (∀ k, k ∉ s.keys \ s'.keys → s'.view k = s.view k) ∧
      s'.bucketCount = s.bucketCount ∧ s'.evictions = s.evictions ∧
      r.reaped = (s.keys \ s'.keys).card ∧
      s'.size + (s.keys \ s'.keys).card = s.size ∧
      s'.expiredKeys = s.expiredKeys + (s.keys \ s'.keys).card ∧
      1 ≤ r.passes ∧ r.passes ≤ kMaxPasses ∧
      (s.expireCursor = 0 → s.size ≤ sampleLimit → s.bucketCount ≤ sampleLimit * 20 →
        ∀ k, k ∈ s.keys \ s'.keys ↔ ∃ it, s.view k = some it ∧ it.expired now = true) := by
  have hinv := hreach.sound.inv
  obtain ⟨log, r, s', htrace⟩ :=
    LoopTrace.exists_of_inv now sampleLimit (sampleLimit * 20) kMaxPasses hinv ⟨0, 0⟩
  obtain ⟨n, hreap, hreaped, hs'⟩ := htrace.reapedAt hinv
  have hcard := hreap.card_gone hinv
  obtain ⟨hfirst, hlast⟩ := htrace.passes
  rw [Nat.zero_add] at hreaped hfirst hlast
  have hgone := fun k => @ReapedAt.mem_gone_iff _ s s' now log n hreap hinv k
  refine ⟨r, s', log, ?_, htrace, htrace.cursors hinv, hgone, fun k => hreap.view_of_not_gone hinv,
    hreap.bucketCount, by rw [hs'], hreaped.trans hcard.symm, ?_, ?_, hfirst, hlast,
    fun hcursor hsamples hbuckets k => ?_⟩
  · rw [activeExpireCycle, Nat.mod_eq_of_lt hlimit]
    exact htrace.run
  · rw [hcard]
    exact hreap.count
  · rw [hcard, hs']
  · constructor
    · intro hk
      obtain ⟨it, hit, hx, -⟩ := (hgone k).mp hk
      exact ⟨it, hit, hx⟩
    · rintro ⟨it, hit, hx⟩
      -- What is still there after a sweep of the whole table has not expired.
      by_contra hk
      have hkept := (hreap.view_of_not_gone hinv hk).trans hit
      rw [htrace.sweeps_table hinv hcursor hsamples hbuckets (hbuckets.trans hlimit.le) hkept] at hx
      cases hx

omit [EntryPool] in
/-- The default pool: of two keys one has expired, and a sample limit of two is enough for the
four buckets. -/
theorem activeExpireCycle_effect_full : letI := slabPool
    ∃ s₀ s₁ s s' : Store, ∃ r,
      Store.new { seed := 7, initialBuckets := 4 } 0 = some s₀ ∧
      s₀.set [1] [5] 50 10 = some (true, s₁) ∧ s₁.set [2] [5] kNoExpiry 10 = some (true, s) ∧
      s.activeExpireCycle 60 2 = some (r, s') ∧ s.keys \ s'.keys = {[1]} ∧ r.reaped = 1 ∧
      s'.size = 1 ∧ s'.expiredKeys = 1 := by
  let _ := slabPool
  have get {o : Option (Bool × Store)} (h : o.isSome) (htrue : (o.get h).1 = true) :
      o = some (true, (o.get h).2) := by
    rw [← htrue]
    exact (Option.some_get h).symm
  let s₀ := (Store.new { seed := 7, initialBuckets := 4 } 0).get (by decide)
  let s₁ := ((s₀.set [1] [5] 50 10).get (by decide)).2
  let s := ((s₁.set [2] [5] kNoExpiry 10).get (by decide)).2
  have hnew : Store.new { seed := 7, initialBuckets := 4 } 0 = some s₀ := (Option.some_get _).symm
  have hset₁ : s₀.set [1] [5] 50 10 = some (true, s₁) := get (by decide) (by decide)
  have hset : s₁.set [2] [5] kNoExpiry 10 = some (true, s) := get (by decide) (by decide)
  have hreach : Reachable { seed := 7, initialBuckets := 4 } s :=
    ⟨0, s₀, [.client (.set [1] [5] 50 10), .client (.set [2] [5] kNoExpiry 10)], hnew, by decide,
      by simp [Call.run, Op.run, hset₁, hset]⟩
  obtain ⟨r, s', log, hcycle, -, -, -, -, -, -, hreaped, hsize, hexpired, -, -, hfull⟩ :=
    activeExpireCycle_effect hreach 60 (show 2 * 20 < 2 ^ 64 by decide)
  have hgone : s.keys \ s'.keys = {[1]} := by
    ext k
    rw [hfull (by decide) (by decide) (by decide), Finset.mem_singleton]
    constructor
    · rintro ⟨it, hit, hx⟩
      have hk : k ∈ s.keys := (mem_keys hreach.sound.inv).mpr (by rw [hit]; rfl)
      rw [show s.keys = {[1], [2]} by decide, Finset.mem_insert, Finset.mem_singleton] at hk
      rcases hk with rfl | rfl
      · rfl
      · have hlive : (s.view [2]).any (fun it => it.expired 60) = false := by decide
        rw [hit, Option.any_some, hx] at hlive
        cases hlive
    · rintro rfl
      have hdead : (s.view [1]).any (fun it => it.expired 60) = true := by decide
      exact (Option.any_eq_true _ _).mp hdead
  rw [hgone, Finset.card_singleton] at hreaped hsize hexpired
  have hsize₀ : s.size = 2 := by decide
  have hexpired₀ : s.expiredKeys = 0 := by decide
  exact ⟨s₀, s₁, s, s', r, hnew, hset₁, hset, hcycle, hgone, hreaped, by omega, by omega⟩

end Store

end TinyRedis

import TinyRedis.Proofs.Store.Evict

/-!
# `TinyRedis.Proofs.Store.Cycle`: the expire cycle removes expired entries only

One scan step of the cycle visits a whole chain and removes its expired entries (`scanExpire_spec`).
`Reaped` is what any number of such steps does to a table, and `ReapedAt` adds which cursors they
scanned: exactly the expired entries of those buckets are gone.

A cycle stops by four rules: the sample quota, the bucket quota, the wrap of the cursor, and the
share of expired entries. `PassTrace` and `LoopTrace` are the runs of the two loops, with a
constructor for each rule and a log of the cursors scanned. They are runs of the code
(`PassTrace.run`, `LoopTrace.run`), they always exist, and what a cycle does follows by induction on
them.

* `Scanned`, `Scanned.step`: the visits of one chain, block by block.
* `Reaped.trans`, `ReapedAt.trans`: scan steps one after another.
* `PassTrace.exists_of_inv`, `LoopTrace.exists_of_inv`: a cycle is defined and ends.
* `PassTrace.reapedAt`, `LoopTrace.reapedAt`: what a pass removes, and what a cycle does.
* `activeExpireCycle_spec`: the cycle of the source, with all of this.

The traces are kept apart from the loops so that the modules that follow can ask other things of a
cycle, such as which buckets it has come to, without unfolding the loops again.
-/

set_option autoImplicit false

namespace TinyRedis

variable [EntryPool]

namespace Store

/-- The effect of a scan step of the cycle on the chain at its cursor, after the visits
`done`. -/
structure Scanned (t₀ : Table) (c₀ : PassCount) (now : Int64) (done : List Ptr) (t : Table)
    (c : PassCount) : Prop where
  contents : ∀ p, t.contents p
    = if p ∈ done ∧ t₀.expiredAt now p then none else t₀.contents p
  count : t.liveCount + (done.filter (t₀.expiredAt now)).length = t₀.liveCount
  hashSeed : t.hashSeed = t₀.hashSeed
  bucketCount : t.bucketCount = t₀.bucketCount
  counted : c = ⟨c₀.sampled + done.length,
    c₀.expired + (done.filter (t₀.expiredAt now)).length⟩

/-- The step lemma of the visits. -/
theorem Scanned.step {t₀ t : Table} {c₀ c : PassCount} {now : Int64} {done : List Ptr}
    (h : Scanned t₀ c₀ now done t c) (hinv : t.Inv) {p : Ptr} {k : Bytes} {it : Item}
    (hp : p ∉ done) (hc : t.contents p = some (k, it)) :
    ∃ t' c', expireVisitor now p (t, c) = some (t', c') ∧ Table.Visited p t t' ∧
      Scanned t₀ c₀ now (done ++ [p]) t' c' := by
  obtain ⟨e, he, -, -, hexp, -⟩ := hinv.mem_eq hc
  -- The block has not been visited, so it holds what it held before the scan.
  have hc₀ : t₀.contents p = some (k, it) := by
    rw [h.contents, if_neg (fun hmem => hp hmem.1)] at hc
    exact hc
  have hx : e.expired now = t₀.expiredAt now p := by
    rw [Table.expiredAt, hc₀, Option.any_some, Entry.expired_eq hexp]
  have hcounted := h.counted
  cases hxp : t₀.expiredAt now p with
  | true =>
    obtain ⟨t', ht', hinv', hcont', hcount', hseed', hbc', -⟩ := Table.remove_spec hinv hc
    refine ⟨t', ⟨c.sampled + 1, c.expired + 1⟩, by simp [expireVisitor, he, hx, hxp, ht'],
      Or.inr ht', ?_, ?_, hseed'.trans h.hashSeed, hbc'.trans h.bucketCount, ?_⟩
    · rw [hcont']
      exact Table.contents_visit_drop h.contents hxp
    · have hcount := h.count
      simp only [List.filter_append, List.length_append, List.filter_cons, hxp, if_true,
        List.filter_nil, List.length_singleton]
      omega
    · simp [hcounted, hxp, List.filter_append, Nat.add_assoc]
  | false =>
    refine ⟨t, ⟨c.sampled + 1, c.expired⟩, by simp [expireVisitor, he, hx, hxp], Or.inl rfl,
      Table.contents_visit_keep h.contents hxp, ?_, h.hashSeed, h.bucketCount, ?_⟩
    · simpa [List.filter_append, hxp] using h.count
    · simp [hcounted, hxp, List.filter_append, Nat.add_assoc]

/-- One scan step of the cycle: the expired entries of the chain are removed, and the chain is
counted. -/
theorem scanExpire_spec {t : Table} (h : t.Inv) (cursor : Nat) (now : Int64) (c : PassCount) :
    ∃ t' c', t.scanBucket cursor (expireVisitor now) c
        = some (nextCursor cursor (t.bucketCount - 1), t', c') ∧ t'.Inv ∧
      Scanned t c now (t.chain (cursor % t.bucketCount)) t' c' := by
  have hnodup := h.chain_nodup (Nat.mod_lt cursor h.bucketCount_pos)
  obtain ⟨t', c', hscan, hinv, done, hdone, hsc⟩ := Table.scanBucket_rule h cursor
    (expireVisitor now)
    (fun todo t' c' => ∃ done, done ++ todo = t.chain (cursor % t.bucketCount) ∧
      Scanned t c now done t' c')
    (fun p todo t' c' k it hinv hc hp hJ => by
      obtain ⟨done, hdone, hsc⟩ := hJ
      have hpd : p ∉ done := by
        intro hmem
        rw [← hdone] at hnodup
        exact (List.nodup_append.mp hnodup).2.2 p hmem p (by simp) rfl
      obtain ⟨t'', c'', hv, hvis, hsc'⟩ := hsc.step hinv hpd hc
      exact ⟨t'', c'', hv, hvis, done ++ [p], by simpa using hdone, hsc'⟩)
    (s := c)
    ⟨[], rfl, by simp, by simp, rfl, rfl, by simp⟩
  rw [List.append_nil] at hdone
  exact ⟨t', c', hscan, hinv, hdone ▸ hsc⟩

/-- A scan step that has been made is the one of the specification. -/
theorem scanExpire_of_some {t t' : Table} (h : t.Inv) {cursor next : Nat} {now : Int64}
    {c c' : PassCount} (hscan : t.scanBucket cursor (expireVisitor now) c = some (next, t', c')) :
    next = nextCursor cursor (t.bucketCount - 1) ∧ t'.Inv ∧
      Scanned t c now (t.chain (cursor % t.bucketCount)) t' c' := by
  obtain ⟨t₁, c₁, hscan₁, hinv, hsc⟩ := scanExpire_spec h cursor now c
  rw [hscan] at hscan₁
  obtain ⟨hnext, hrest⟩ := Prod.mk.inj (Option.some.inj hscan₁)
  obtain ⟨rfl, rfl⟩ := Prod.mk.inj hrest
  exact ⟨hnext, hinv, hsc⟩

/-- Entries of `t` that have expired at `now`, and no others, are missing in `t'`: `n` of
them. -/
structure Reaped (t : Table) (now : Int64) (n : Nat) (t' : Table) : Prop where
  inv : t'.Inv
  contents : ∀ p, t'.contents p = t.contents p ∨
    (t'.contents p = none ∧ t.expiredAt now p)
  count : t'.size + n = t.size
  hashSeed : t'.hashSeed = t.hashSeed
  bucketCount : t'.bucketCount = t.bucketCount

namespace Reaped

variable {t t' t'' : Table} {now : Int64} {n m : Nat}

/-- No step removes nothing. -/
theorem rfl (h : t.Inv) : Reaped t now 0 t :=
  ⟨h, fun _ => Or.inl (Eq.refl _), Eq.refl _, Eq.refl _, Eq.refl _⟩

/-- What some steps leave, and then some more, is what all of them leave. -/
theorem trans (h : Reaped t now n t') (h' : Reaped t' now m t'') :
    Reaped t now (n + m) t'' := by
  refine ⟨h'.inv, fun p => ?_, ?_, h'.hashSeed.trans h.hashSeed,
    h'.bucketCount.trans h.bucketCount⟩
  · rcases h'.contents p with heq' | ⟨hnone', hx'⟩
    · rw [heq']
      exact h.contents p
    · rcases h.contents p with heq | ⟨hnone, hx⟩
      · rw [Table.expiredAt, heq] at hx'
        exact Or.inr ⟨hnone', hx'⟩
      · exact Or.inr ⟨hnone', hx⟩
  · have := h.count
    have := h'.count
    omega

/-- The dictionary loses expired items only. -/
theorem view (h : Reaped t now n t') (hinv : t.Inv) (k : Bytes) :
    t'.view k = t.view k ∨
      (t'.view k = none ∧ ∃ it, t.view k = some it ∧ it.expired now = true) := by
  cases hk : t.view k with
  | none =>
    left
    rw [Table.view_eq_none_iff hinv.toBase] at hk
    rw [Table.view_eq_none_iff h.inv.toBase]
    intro p it hc
    rcases h.contents p with heq | ⟨hnone, -⟩
    · exact hk p it (heq ▸ hc)
    · rw [hnone] at hc
      cases hc
  | some it =>
    obtain ⟨p, hc⟩ := (Table.view_eq_some_iff hinv.toBase).mp hk
    rcases h.contents p with heq | ⟨hnone, hx⟩
    · exact Or.inl (h.inv.toBase.view_of_contents (heq.trans hc))
    · right
      refine ⟨(Table.view_eq_none_iff h.inv.toBase).mpr fun q it' hq => ?_, it, Eq.refl _, ?_⟩
      · -- The key was stored in one block, and that block is empty.
        rcases h.contents q with heq | ⟨hnone', -⟩
        · rw [heq] at hq
          rw [hinv.toBase.contents_inj hq hc, hnone] at heq
          rw [hinv.toBase.contents_inj hq hc, ← heq] at hq
          cases hq
        · rw [hnone'] at hq
          cases hq
      · simpa [Table.expiredAt, hc] using hx

end Reaped

/-- One scan step is such a step. -/
theorem Scanned.reaped {t t' : Table} {c c' : PassCount} {now : Int64} {l : List Ptr}
    (h : Scanned t c now l t' c') (hinv : t'.Inv) :
    Reaped t now (l.filter (t.expiredAt now)).length t' := by
  refine ⟨hinv, fun p => ?_, h.count, h.hashSeed, h.bucketCount⟩
  rw [h.contents]
  split
  · next hp => exact Or.inr ⟨rfl, hp.2⟩
  · exact Or.inl rfl

/-! ### What a list of scans removes -/

/-- The key `k` is chained in the bucket that a scan at `cursor` visits. -/
def ChainedAt (t : Table) (cursor : Nat) (k : Bytes) : Prop :=
  t.bucketOf (Table.hash32 t.hashSeed k) = cursor &&& (t.bucketCount - 1)

/-- A block is in the chain of a cursor when its key is. -/
theorem mem_chain_iff_chainedAt {t : Table} (h : t.Base) {cursor : Nat} {p : Ptr} :
    p ∈ t.chain (cursor % t.bucketCount) ↔
      ∃ k it, t.contents p = some (k, it) ∧ ChainedAt t cursor k := by
  simp only [h.mem_chain_iff (Nat.mod_lt cursor h.bucketCount_pos), ChainedAt, h.and_mask]
  rfl

/-- Scans at the cursors `log` have taken `n` entries out of `t`: the expired ones of the buckets
they visited. -/
structure ReapedAt (t : Table) (now : Int64) (log : List Nat) (n : Nat) (t' : Table) : Prop
    extends Reaped t now n t' where
  kept : ∀ k it, t'.view k = some it ↔
    t.view k = some it ∧ (it.expired now = true → ∀ cursor ∈ log, ¬ ChainedAt t cursor k)

namespace ReapedAt

variable {t t' t'' : Table} {now : Int64} {log log' : List Nat} {n m : Nat}

/-- No scan removes nothing. -/
theorem rfl (h : t.Inv) : ReapedAt t now [] 0 t :=
  ⟨Reaped.rfl h, fun k it => by simp⟩

/-- A cycle moves no key to another chain. -/
theorem chainedAt_iff (h : Reaped t now n t') {cursor : Nat} {k : Bytes} :
    ChainedAt t' cursor k ↔ ChainedAt t cursor k := by
  rw [ChainedAt, ChainedAt, Table.bucketOf, Table.bucketOf, h.hashSeed, h.bucketCount]

/-- Some cursors are scanned, and then some more. -/
theorem trans (h : ReapedAt t now log n t') (h' : ReapedAt t' now log' m t'') :
    ReapedAt t now (log ++ log') (n + m) t'' := by
  refine ⟨h.toReaped.trans h'.toReaped, fun k it => ?_⟩
  simp only [h'.kept, h.kept, chainedAt_iff h.toReaped, List.forall_mem_append]
  tauto

/-- What is left in a bucket that was scanned has not expired. -/
theorem expired_eq_false (h : ReapedAt t now log n t') {k : Bytes} {it : Item} {cursor : Nat}
    (hk : t'.view k = some it) (hmem : cursor ∈ log) (hat : ChainedAt t cursor k) :
    it.expired now = false := by
  by_contra hx
  rw [Bool.not_eq_false] at hx
  exact ((h.kept k it).mp hk).2 hx cursor hmem hat

end ReapedAt

/-- One scan sweeps the bucket at its cursor. -/
theorem Scanned.reapedAt {t t' : Table} {c c' : PassCount} {now : Int64} {cursor : Nat}
    (h : Scanned t c now (t.chain (cursor % t.bucketCount)) t' c') (hinv : t.Inv)
    (hinv' : t'.Inv) :
    ReapedAt t now [cursor] ((t.chain (cursor % t.bucketCount)).filter (t.expiredAt now)).length
      t' := by
  refine ⟨h.reaped hinv', fun k it => ?_⟩
  rw [Table.view_eq_some_iff hinv'.toBase, Table.view_eq_some_iff hinv.toBase,
    List.forall_mem_singleton]
  constructor
  · rintro ⟨p, hp⟩
    rw [h.contents] at hp
    split at hp
    · cases hp
    · next hkept =>
      refine ⟨⟨p, hp⟩, fun hx hat => hkept ⟨?_, ?_⟩⟩
      · exact (mem_chain_iff_chainedAt hinv.toBase).mpr ⟨k, it, hp, hat⟩
      · rw [Table.expiredAt_of_contents hp]
        exact hx
  · rintro ⟨⟨p, hp⟩, hnot⟩
    refine ⟨p, ?_⟩
    rw [h.contents, if_neg, hp]
    rintro ⟨hmem, hx⟩
    obtain ⟨k', it', hp', hat⟩ := (mem_chain_iff_chainedAt hinv.toBase).mp hmem
    rw [Table.expiredAt_of_contents hp] at hx
    rw [hp] at hp'
    cases hp'
    exact hnot hx hat

/-! ### One pass -/

/-- The runs of `expirePass`, with the cursors they scan. -/
inductive PassTrace (now : Int64) (sampleLimit : Nat) : (buckets : Nat) → Table → (cursor : Nat) →
    PassCount → (log : List Nat) → Table → Nat → PassCount → (wrapped : Bool) → Prop where
  | bucketQuota {t : Table} {cursor : Nat} {c : PassCount} :
      PassTrace now sampleLimit 0 t cursor c [] t cursor c false
  | sampleQuota {buckets : Nat} {t : Table} {cursor : Nat} {c : PassCount}
      (reached : sampleLimit ≤ c.sampled) :
      PassTrace now sampleLimit (buckets + 1) t cursor c [] t cursor c false
  | wrapped {buckets : Nat} {t t' : Table} {cursor : Nat} {c c' : PassCount}
      (below : c.sampled < sampleLimit)
      (scan : t.scanBucket cursor (expireVisitor now) c = some (0, t', c')) :
      PassTrace now sampleLimit (buckets + 1) t cursor c [cursor] t' 0 c' true
  | scanned {buckets : Nat} {t t₁ t' : Table} {cursor next cursor' : Nat} {c c₁ c' : PassCount}
      {log : List Nat} {w : Bool} (below : c.sampled < sampleLimit)
      (scan : t.scanBucket cursor (expireVisitor now) c = some (next, t₁, c₁)) (goes : next ≠ 0)
      (rest : PassTrace now sampleLimit buckets t₁ next c₁ log t' cursor' c' w) :
      PassTrace now sampleLimit (buckets + 1) t cursor c (cursor :: log) t' cursor' c' w

namespace PassTrace

variable {now : Int64} {sampleLimit buckets cursor cursor' : Nat} {t t' : Table}
  {c c' : PassCount} {log : List Nat} {w : Bool}

/-- A trace is a run of the code. -/
theorem run (h : PassTrace now sampleLimit buckets t cursor c log t' cursor' c' w) :
    expirePass now sampleLimit buckets t cursor c = some (t', cursor', c', w) := by
  induction h with
  | bucketQuota => rfl
  | sampleQuota reached => rw [expirePass, if_neg (Nat.not_lt.mpr reached)]
  | wrapped below scan =>
    rw [expirePass, if_pos below, scan]
    rfl
  | scanned below scan goes rest ih =>
    rw [expirePass, if_pos below, scan, Option.bind_eq_bind, Option.bind_some]
    exact (if_neg goes).trans ih

/-- A pass always has a trace. -/
theorem exists_of_inv (now : Int64) (sampleLimit buckets : Nat) {t : Table} (h : t.Inv)
    (cursor : Nat) (c : PassCount) : ∃ log t' cursor' c' w,
      PassTrace now sampleLimit buckets t cursor c log t' cursor' c' w := by
  induction buckets generalizing t cursor c with
  | zero => exact ⟨_, _, _, _, _, .bucketQuota⟩
  | succ buckets ih =>
    by_cases hbelow : c.sampled < sampleLimit
    · obtain ⟨t₁, c₁, hscan, hinv₁, -⟩ := scanExpire_spec h cursor now c
      by_cases hnext : nextCursor cursor (t.bucketCount - 1) = 0
      · rw [hnext] at hscan
        exact ⟨_, _, _, _, _, .wrapped hbelow hscan⟩
      · obtain ⟨log, t', cursor', c', w, hrest⟩ := ih hinv₁ _ c₁
        exact ⟨_, _, _, _, _, .scanned hbelow hscan hnext hrest⟩
    · exact ⟨_, _, _, _, _, .sampleQuota (Nat.le_of_not_lt hbelow)⟩

/-- A pass sweeps the cursors it scans, and counts what it takes out. -/
theorem reapedAt (h : PassTrace now sampleLimit buckets t cursor c log t' cursor' c' w)
    (hinv : t.Inv) : ∃ n, ReapedAt t now log n t' ∧ c'.expired = c.expired + n := by
  induction h with
  | bucketQuota => exact ⟨0, ReapedAt.rfl hinv, rfl⟩
  | sampleQuota _ => exact ⟨0, ReapedAt.rfl hinv, rfl⟩
  | wrapped _ scan =>
    obtain ⟨-, hinv₁, hsc⟩ := scanExpire_of_some hinv scan
    exact ⟨_, hsc.reapedAt hinv hinv₁, congrArg PassCount.expired hsc.counted⟩
  | scanned _ scan _ _ ih =>
    obtain ⟨-, hinv₁, hsc⟩ := scanExpire_of_some hinv scan
    obtain ⟨n, hrest, hcount⟩ := ih hinv₁
    refine ⟨_, (hsc.reapedAt hinv hinv₁).trans hrest, ?_⟩
    rw [hcount, congrArg PassCount.expired hsc.counted, Nat.add_assoc]

end PassTrace

/-! ### The pass loop -/

/-- The store after a pass. -/
def afterPass (s : Store) (t : Table) (cursor : Nat) (c : PassCount) : Store :=
  { s with table := t, expireCursor := cursor, expiredKeys := s.expiredKeys + c.expired }

/-- The runs of `expireLoop`, with the cursors they scan. -/
inductive LoopTrace (now : Int64) (sampleLimit maxBuckets : Nat) : (left : Nat) → Store →
    ExpireCycleResult → (log : List Nat) → ExpireCycleResult → Store → Prop where
  | passQuota {s : Store} {r : ExpireCycleResult} :
      LoopTrace now sampleLimit maxBuckets 0 s r [] r s
  | stopped {left : Nat} {s : Store} {r : ExpireCycleResult} {log : List Nat} {t : Table}
      {cursor : Nat} {c : PassCount} {w : Bool}
      (pass : PassTrace now sampleLimit maxBuckets s.table s.expireCursor ⟨0, 0⟩ log t cursor c w)
      (stop : w ∨ c.expired * 10 ≤ c.sampled) :
      LoopTrace now sampleLimit maxBuckets (left + 1) s r log ⟨r.reaped + c.expired, r.passes + 1⟩
        (s.afterPass t cursor c)
  | again {left : Nat} {s s' : Store} {r r' : ExpireCycleResult} {log log' : List Nat} {t : Table}
      {cursor : Nat} {c : PassCount} {w : Bool}
      (pass : PassTrace now sampleLimit maxBuckets s.table s.expireCursor ⟨0, 0⟩ log t cursor c w)
      (goes : ¬ (w ∨ c.expired * 10 ≤ c.sampled))
      (rest : LoopTrace now sampleLimit maxBuckets left (s.afterPass t cursor c)
        ⟨r.reaped + c.expired, r.passes + 1⟩ log' r' s') :
      LoopTrace now sampleLimit maxBuckets (left + 1) s r (log ++ log') r' s'

namespace LoopTrace

variable {now : Int64} {sampleLimit maxBuckets left : Nat} {s s' : Store}
  {r r' : ExpireCycleResult} {log : List Nat}

/-- A trace is a run of the loop. -/
theorem run (h : LoopTrace now sampleLimit maxBuckets left s r log r' s') :
    expireLoop now sampleLimit maxBuckets left s r = some (r', s') := by
  induction h with
  | passQuota => rfl
  | stopped pass stop =>
    rw [expireLoop, pass.run, Option.bind_eq_bind, Option.bind_some]
    exact if_pos stop
  | again pass goes rest ih =>
    rw [expireLoop, pass.run, Option.bind_eq_bind, Option.bind_some]
    exact (if_neg goes).trans ih

/-- There is one from every table that keeps its invariant. -/
theorem exists_of_inv (now : Int64) (sampleLimit maxBuckets left : Nat) {s : Store}
    (h : s.table.Inv) (r : ExpireCycleResult) : ∃ log r' s',
      LoopTrace now sampleLimit maxBuckets left s r log r' s' := by
  induction left generalizing s r with
  | zero => exact ⟨_, _, _, .passQuota⟩
  | succ left ih =>
    obtain ⟨log, t, cursor, c, w, hpass⟩ :=
      PassTrace.exists_of_inv now sampleLimit maxBuckets h s.expireCursor ⟨0, 0⟩
    by_cases hstop : w ∨ c.expired * 10 ≤ c.sampled
    · exact ⟨_, _, _, .stopped hpass hstop⟩
    · obtain ⟨n, hreap, -⟩ := hpass.reapedAt h
      obtain ⟨log', r', s', hrest⟩ := @ih (s.afterPass t cursor c) hreap.inv _
      exact ⟨_, _, _, .again hpass hstop hrest⟩

/-- The loop sweeps the cursors it scans, and reports and counts what it takes out. -/
theorem reapedAt (h : LoopTrace now sampleLimit maxBuckets left s r log r' s')
    (hinv : s.table.Inv) : ∃ n, ReapedAt s.table now log n s'.table ∧
      r'.reaped = r.reaped + n ∧
      s' = { s with table := s'.table, expireCursor := s'.expireCursor
                    expiredKeys := s.expiredKeys + n } := by
  induction h with
  | passQuota => exact ⟨0, ReapedAt.rfl hinv, rfl, rfl⟩
  | stopped pass _ =>
    obtain ⟨n, hreap, hcount⟩ := pass.reapedAt hinv
    rw [Nat.zero_add] at hcount
    subst hcount
    exact ⟨_, hreap, rfl, rfl⟩
  | again pass _ rest ih =>
    obtain ⟨n, hreap, hcount⟩ := pass.reapedAt hinv
    rw [Nat.zero_add] at hcount
    subst hcount
    obtain ⟨m, hrest, hreaped, hs'⟩ := ih hreap.inv
    refine ⟨_, hreap.trans hrest, ?_, ?_⟩
    · rw [hreaped, Nat.add_assoc]
    · rw [hs', afterPass, Nat.add_assoc]

end LoopTrace

/-- The specification of the expire cycle. -/
theorem activeExpireCycle_spec {s : Store} (h : s.table.Inv) (now : Int64) (sampleLimit : Nat) :
    ∃ r t' cursor', s.activeExpireCycle now sampleLimit
        = some (r, { s with table := t', expireCursor := cursor'
                            expiredKeys := s.expiredKeys + r.reaped }) ∧
      Reaped s.table now r.reaped t' := by
  obtain ⟨log, r, s', htrace⟩ :=
    LoopTrace.exists_of_inv now sampleLimit (sampleLimit * 20 % 2 ^ 64) kMaxPasses h ⟨0, 0⟩
  obtain ⟨n, hreap, hreaped, hs'⟩ := htrace.reapedAt h
  rw [Nat.zero_add] at hreaped
  subst hreaped
  refine ⟨r, s'.table, s'.expireCursor, ?_, hreap.toReaped⟩
  rw [← hs']
  exact htrace.run

end Store

end TinyRedis

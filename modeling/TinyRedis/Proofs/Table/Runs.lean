import Mathlib.Algebra.BigOperators.Group.List.Basic
import TinyRedis.Proofs.Table.Walks

/-!
# `TinyRedis.Proofs.Table.Runs`: every table a caller can reach

A run applies table operations, each within its contract: `insert` gets an absent key, `assign` and
`remove` a contained entry, and a pair's lengths add up in `uint32_t`. A scan carries the visitor's
answers, block by block: a scan hands it each block once, so the answers stand for a visitor with
any state of its own.

* `Op.run`, `Op.Ok`: the operations of the table, and what a caller may ask for.
* `run_spec`: one operation is defined, and keeps the invariant.
* `Run.inv`: so does a run of them.
* `WellFormed`, `Inv.wellFormed`: the invariant in the words of the chains.
* `run_wellFormed`: every state of every run is well formed, its bucket count never shrinks, and
  every operation is defined there.
* `sampleSome_slice`: for each of these tables, what a sample of it is.

The invariant of `TinyRedis.Proofs.Table.Inv` speaks of sets of blocks, which is what the proofs
need. `WellFormed` says the same of the lists that a reader of the source has in mind: chains
without repetitions, every block in exactly one of them.
-/

set_option autoImplicit false

namespace TinyRedis

open Lib

variable [EntryPool]

namespace Table

/-- A call into the table. -/
inductive Op where
  | insert (key value : Bytes)
  | assign (p : Ptr) (value : Bytes)
  | remove (p : Ptr)
  | clear
  | sampleSome (slots : Nat) (rngState : UInt64)
  | scanBucket (cursor : Nat) (rm : Ptr → Bool)

/-- A visitor that removes the entries `rm` picks. -/
def visitRemoving (rm : Ptr → Bool) (p : Ptr) (s : Table × Unit) : Option (Table × Unit) :=
  if rm p then do return (← s.1.remove p, ()) else some s

namespace Op

/-- The table after the call. -/
def run (t : Table) : Op → Option Table
  | .insert key value => do return (← t.insert key value).2
  | .assign p value => t.assign p value
  | .remove p => t.remove p
  | .clear => t.clear
  | .sampleSome slots rngState => do
      let _ ← t.sampleSome slots rngState
      return t
  | .scanBucket cursor rm => do return (← t.scanBucket cursor (visitRemoving rm) ()).2.1

/-- The contract of the call. -/
def Ok (t : Table) : Op → Prop
  | .insert key value => t.find key = some none ∧ key.length + value.length < 2 ^ 32
  | .assign p value => ∃ e, t.mem p = some e ∧ e.keyLen.toNat + value.length < 2 ^ 32
  | .remove p => (t.mem p).isSome
  | .clear => True
  | .sampleSome _ _ => True
  | .scanBucket _ _ => True

end Op

/-- The table after a run of calls, each within its contract. -/
inductive Run : Table → List Op → Table → Prop where
  | nil (t : Table) : Run t [] t
  | cons {t t' t'' : Table} {op : Op} {ops : List Op} (ok : op.Ok t) (step : op.run t = some t')
      (rest : Run t' ops t'') : Run t (op :: ops) t''

/-- A removing visitor takes out the handed entry or keeps the table. -/
theorem visitRemoving_spec {t : Table} (h : t.Inv) {p : Ptr} {k : Bytes} {it : Item}
    (hc : t.contents p = some (k, it)) (rm : Ptr → Bool) :
    ∃ t', visitRemoving rm p (t, ()) = some (t', ()) ∧ Visited p t t' ∧
      t'.contents = (if rm p then Function.update t.contents p none else t.contents) ∧
      t'.bucketCount = t.bucketCount ∧ t'.hashSeed = t.hashSeed := by
  unfold visitRemoving
  cases rm p with
  | false => exact ⟨t, rfl, Or.inl rfl, rfl, rfl, rfl⟩
  | true =>
    obtain ⟨t', ht', -, hcont, -, hseed, hbc, -⟩ := remove_spec h hc
    exact ⟨t', by simp [ht'], Or.inr ht', hcont, hbc, hseed⟩

/-- A scan step with a removing visitor keeps the invariant, the bucket count and the seed. It
takes out the picked entries of the scanned chain. -/
theorem scanBucket_spec {t : Table} (h : t.Inv) (cursor : Nat) (rm : Ptr → Bool) :
    ∃ t', t.scanBucket cursor (visitRemoving rm) ()
        = some (nextCursor cursor (t.bucketCount - 1), t', ()) ∧ t'.Inv ∧
      t'.bucketCount = t.bucketCount ∧ t'.hashSeed = t.hashSeed ∧
      ∀ p, t'.contents p = if p ∈ t.chain (cursor % t.bucketCount) ∧ rm p then none
        else t.contents p := by
  -- Behind the walk the picked entries are out; ahead of it nothing has changed.
  obtain ⟨t', ⟨⟩, ht', hinv, hbc, hseed, -, hcont⟩ := scanBucket_rule h cursor
    (visitRemoving rm)
    (fun todo t' _ => t'.bucketCount = t.bucketCount ∧ t'.hashSeed = t.hashSeed ∧
      (∀ p ∈ todo, p ∈ t.chain (cursor % t.bucketCount)) ∧
      ∀ p, t'.contents p = if p ∈ t.chain (cursor % t.bucketCount) ∧ p ∉ todo ∧ rm p then none
        else t.contents p)
    (fun p todo t' s k it hinv hc hp hJ => by
      obtain ⟨hbc, hseed, hsub, hcont⟩ := hJ
      obtain ⟨t'', ht'', hvis, hcont', hbc', hseed'⟩ := visitRemoving_spec hinv hc rm
      refine ⟨t'', (), ht'', hvis, hbc'.trans hbc, hseed'.trans hseed,
        fun q hq => hsub q (by simp [hq]), fun q => ?_⟩
      have hpc := hsub p (by simp)
      rw [hcont']
      by_cases hq : q = p
      · subst hq
        have := hcont q
        cases hrm : rm q <;> simp_all
      · have := hcont q
        cases hrm : rm p <;> simp_all)
    ⟨rfl, rfl, fun p hp => hp, fun p => by simp +contextual⟩
  refine ⟨t', ht', hinv, hbc, hseed, fun p => ?_⟩
  simpa using hcont p

/-- The bucket array doubles only while the pool could still fill it, so its size stays within
`size_t`. -/
theorem Inv.double_le {t : Table} (h : t.Inv) (hfull : t.bucketCount < t.liveCount + 1) :
    t.bucketCount * 2 ≤ 2 ^ 63 := by
  have hcount := h.count
  have hcard := EntryPool.outstanding_card_le t.pool
  have hcap := EntryPool.capacity_le
  omega

/-- A sample is drawn from every table, and leaves the table as it is. -/
theorem run_sampleSome {t : Table} (h : t.Base) (slots : Nat) (rngState : UInt64) :
    (Op.sampleSome slots rngState).run t = some t := by
  simp only [Op.run, sampleSome_eq h, Option.bind_eq_bind, Option.bind_some, Option.pure_def]

/-- The step lemma: a call within its contract is defined, keeps the invariant, and never
shrinks the bucket array. -/
theorem run_spec {t : Table} (h : t.Inv) {op : Op} (hok : op.Ok t) :
    ∃ t', op.run t = some t' ∧ t'.Inv ∧ t'.hashSeed = t.hashSeed ∧
      t.bucketCount ≤ t'.bucketCount ∧ (t.bucketCount ≤ 2 ^ 63 → t'.bucketCount ≤ 2 ^ 63) := by
  cases op with
  | insert key value =>
    obtain ⟨hfind, hfit⟩ := hok
    have habsent : t.view key = none := by simp [view, hfind]
    rcases insert_spec h hfit habsent with ⟨-, hins⟩ | ⟨p, t', hins, hinv, -, -, -, hseed, hbc⟩
    · exact ⟨t, by simp [Op.run, hins], h, rfl, Nat.le_refl _, id⟩
    · refine ⟨t', by simp [Op.run, hins], hinv, hseed, ?_⟩
      rw [hbc]
      split
      · next hfull => exact ⟨by omega, fun _ => h.double_le hfull⟩
      · exact ⟨Nat.le_refl _, id⟩
  | assign p value =>
    obtain ⟨e, he, hfit⟩ := hok
    obtain ⟨k, v, hkv, -, hc⟩ := h.contents_eq he
    rw [hkv.keyLen] at hfit
    obtain ⟨t', ht', hinv, -, -, hseed, hb⟩ := assign_spec h hc hfit
    have hbc : t'.bucketCount = t.bucketCount := congrArg List.length hb
    exact ⟨t', ht', hinv, hseed, by rw [hbc], by rw [hbc]; exact id⟩
  | remove p =>
    obtain ⟨e, he⟩ := Option.isSome_iff_exists.mp hok
    obtain ⟨k, v, -, -, hc⟩ := h.contents_eq he
    obtain ⟨t', ht', hinv, -, -, hseed, hbc, -⟩ := remove_spec h hc
    exact ⟨t', ht', hinv, hseed, by rw [hbc], by rw [hbc]; exact id⟩
  | clear =>
    obtain ⟨t', ht', hinv, -, -, hseed, hbc⟩ := clear_spec h
    exact ⟨t', ht', hinv, hseed, by rw [hbc], by rw [hbc]; exact id⟩
  | sampleSome slots rngState =>
    exact ⟨t, run_sampleSome h.toBase slots rngState, h, rfl, Nat.le_refl _, id⟩
  | scanBucket cursor rm =>
    obtain ⟨t', ht', hinv, hbc, hseed, -⟩ := scanBucket_spec h cursor rm
    exact ⟨t', by simp [Op.run, ht'], hinv, hseed, by rw [hbc], by rw [hbc]; exact id⟩

/-- A run keeps the invariant and never shrinks the bucket array. -/
theorem Run.inv {t t' : Table} {ops : List Op} (h : Run t ops t') (hinv : t.Inv) :
    t'.Inv ∧ t'.hashSeed = t.hashSeed ∧ t.bucketCount ≤ t'.bucketCount ∧
      (t.bucketCount ≤ 2 ^ 63 → t'.bucketCount ≤ 2 ^ 63) := by
  induction h with
  | nil t => exact ⟨hinv, rfl, Nat.le_refl _, id⟩
  | cons ok step rest ih =>
    obtain ⟨t₁, ht₁, hinv₁, hseed, hle, hmax⟩ := run_spec hinv ok
    rw [step] at ht₁
    cases ht₁
    obtain ⟨hinv', hseed', hle', hmax'⟩ := ih hinv₁
    exact ⟨hinv', hseed'.trans hseed, Nat.le_trans hle hle', fun hb => hmax' (hmax hb)⟩

/-! ### The invariant in the words of the chains -/

/-- The representation invariant, read off the chains. A block is chained when some bucket's
chain holds it. -/
structure WellFormed (t : Table) : Prop where
  pow2 : ∃ k, t.bucketCount = 2 ^ k
  minBuckets : kMinBuckets ≤ t.bucketCount
  /-- The links from every bucket visit its chain and end. -/
  chains : ∀ i < t.bucketCount, ∃ head, t.buckets[i]? = some head ∧
    Chain t.mem Entry.next head (t.chain i)
  /-- A chained entry sits in the bucket of its hash, once, and in no other. -/
  placed : ∀ i < t.bucketCount, ∀ p ∈ t.chain i, (t.chain i).count p = 1 ∧
    ∃ e, t.mem p = some e ∧ i = e.hash.toNat &&& (t.bucketCount - 1)
  /-- Its stored hash is the low 32 bits of its key's hash. -/
  hashed : ∀ i < t.bucketCount, ∀ p ∈ t.chain i, ∃ e k, t.mem p = some e ∧ e.key = some k ∧
    e.hash = (hashBytes k t.hashSeed).toUInt32
  /-- No two entries have equal keys. -/
  unique : ∀ i < t.bucketCount, ∀ j < t.bucketCount, ∀ p ∈ t.chain i, ∀ q ∈ t.chain j,
    ∀ e f, t.mem p = some e → t.mem q = some f → e.key = f.key → p = q
  /-- The size counts the chained entries. -/
  size_eq_sum : t.size = ((List.range t.bucketCount).map fun i => (t.chain i).length).sum
  /-- The size counts the outstanding pool blocks. -/
  size_eq_card : t.size = (EntryPool.outstanding t.pool).card
  load : t.size ≤ t.bucketCount

/-- The invariant, in the words of the chains. -/
theorem Inv.wellFormed {t : Table} (h : t.Inv) : t.WellFormed := by
  have hplace : ∀ i < t.bucketCount, ∀ p ∈ t.chain i, ∃ e k v, t.mem p = some e ∧ e.Holds k v ∧
      e.hash = hash32 t.hashSeed k ∧ i = slotOf t.bucketCount e.hash := by
    intro i hi p hp
    obtain ⟨k, it, hc, hs⟩ := (h.mem_chain_iff hi).mp hp
    obtain ⟨e, he, hkv, hh, -⟩ := h.mem_eq hc
    exact ⟨e, k, _, he, hkv, hh, by rw [hh, hs]⟩
  refine ⟨h.pow2, h.minBuckets, fun i hi => h.chain_spec hi, ?_, ?_, ?_, ?_, h.count, h.load⟩
  · intro i hi p hp
    obtain ⟨e, k, v, he, -, -, hs⟩ := hplace i hi p hp
    exact ⟨List.count_eq_one_of_mem (h.chain_nodup hi) hp, e, he, hs⟩
  · intro i hi p hp
    obtain ⟨e, k, v, he, hkv, hh, -⟩ := hplace i hi p hp
    exact ⟨e, k, he, hkv.key, hh⟩
  · intro i hi j hj p hp q hq e f he hf hkey
    obtain ⟨k, v, hkv, -⟩ := h.stored p e he
    exact h.unique p q e f k he hf hkv.key (by rw [← hkey, hkv.key])
  · have hlen : (t.window t.bucketCount 0).length
        = ((List.range t.bucketCount).map fun i => (t.chain i).length).sum := by
      rw [window, List.length_flatMap]
      congr 1
      refine List.map_congr_left fun i hi => ?_
      rw [Nat.zero_add, Nat.mod_eq_of_lt (List.mem_range.mp hi)]
    rw [← hlen, h.length_window_all, size]

/-- In every state `t` of every run from construction on, the representation invariant holds
and the next call within its contract is defined. The bucket count never decreases from `t` to
any later state `t'`. -/
theorem run_wellFormed {initialBuckets : Nat} {seed : UInt64} {t₀ t t' : Table}
    {ops ops' : List Op} (hnew : Table.new initialBuckets seed = some t₀) (hrun : Run t₀ ops t)
    (hlater : Run t ops' t') :
    t.WellFormed ∧ t.hashSeed = seed ∧ (∀ op : Op, op.Ok t → (op.run t).isSome) ∧
      t.bucketCount ≤ t'.bucketCount := by
  obtain ⟨hinv₀, -, -, hseed₀, -⟩ := new_spec hnew
  obtain ⟨hinv, hseed, -⟩ := hrun.inv hinv₀
  refine ⟨hinv.wellFormed, hseed.trans hseed₀, fun op hok => ?_, (hlater.inv hinv).2.2.1⟩
  obtain ⟨t'', ht'', -⟩ := run_spec hinv hok
  simp [ht'']

omit [EntryPool] in
/-- The default pool: five keys in four buckets make the table double once. -/
theorem run_wellFormed_grows : letI := slabPool
    ∃ t₀ t : Table, Table.new 4 7 = some t₀ ∧ Run t₀ [.insert [1] [2], .insert [2] [2],
      .insert [3] [2], .insert [4] [2], .insert [5] [2]] t ∧ t.WellFormed ∧
      t.size = 5 ∧ t.bucketCount = 8 := by
  let _ := slabPool
  have get {α : Type} (o : Option α) (h : o.isSome) : o = some (o.get h) := (Option.some_get h).symm
  let t₀ := (Table.new 4 7).get (by decide)
  let t₁ := ((Op.insert [1] [2]).run t₀).get (by decide)
  let t₂ := ((Op.insert [2] [2]).run t₁).get (by decide)
  let t₃ := ((Op.insert [3] [2]).run t₂).get (by decide)
  let t₄ := ((Op.insert [4] [2]).run t₃).get (by decide)
  let t₅ := ((Op.insert [5] [2]).run t₄).get (by decide)
  have hnew : Table.new 4 7 = some t₀ := get _ _
  have hrun : Run t₀ [.insert [1] [2], .insert [2] [2], .insert [3] [2], .insert [4] [2],
      .insert [5] [2]] t₅ :=
    .cons ⟨by decide, by decide⟩ (get _ _) <| .cons ⟨by decide, by decide⟩ (get _ _) <|
      .cons ⟨by decide, by decide⟩ (get _ _) <| .cons ⟨by decide, by decide⟩ (get _ _) <|
      .cons ⟨by decide, by decide⟩ (get _ _) <| .nil t₅
  exact ⟨t₀, t₅, hnew, hrun, (run_wellFormed hnew hrun (.nil t₅)).1, by decide, by decide⟩

/-! ### What a sample is -/

/-- What `sampleSome` writes for `slots` slots. The drawn word picks a bucket, and `visited` are
the entries of the chains from there on, `min (10 * slots) bucketCount` buckets in a circle. The
sample is the first `w` of them: as many as there are slots, or all. They are distinct entries
of the table, and where the budget covers every bucket only `size` bounds them. An empty table
and a sample without slots draw nothing, and for them `w` is `0`. The table is as it was.

An array of pointers takes at most half the address space, so a span has at most `2 ^ 60` slots
and `10 * slots` does not wrap. -/
theorem sampleSome_slice {t : Table} (h : t.Inv) (slots : Nat) (rngState : UInt64) :
    let start := (splitmix64 rngState).1.toNat &&& (t.bucketCount - 1)
    let visited := (List.range (min (10 * slots) t.bucketCount)).flatMap fun j =>
      t.chain ((start + j) % t.bucketCount)
    let w := min slots visited.length
    ∃ out rngState', t.sampleSome slots rngState = some (out, rngState') ∧
      out = visited.take w ∧ out.length = w ∧ out.Nodup ∧
      (∀ p ∈ out, ∃ k it, t.contents p = some (k, it)) ∧
      (t.bucketCount ≤ 10 * slots → w = min slots t.size) ∧
      (Op.sampleSome slots rngState).run t = some t := by
  intro start visited w
  have hstart : start = (splitmix64 rngState).1.toNat % t.bucketCount := h.and_mask _
  have hvisited : visited = t.window (min (slots * 10) t.bucketCount)
      ((splitmix64 rngState).1.toNat % t.bucketCount) := by
    rw [window, ← hstart, Nat.mul_comm slots 10]
  have hsample := sampleSome_eq h.toBase slots rngState
  rw [← hvisited] at hsample
  obtain ⟨hnodup, -, hstored⟩ := sample_spec h.toBase hsample
  refine ⟨visited.take slots, _, hsample, ?_, List.length_take, hnodup, hstored, fun hcover => ?_,
    run_sampleSome h.toBase slots rngState⟩
  · rw [List.take_eq_take_min]
  · have hlen : visited.length = t.size := by
      rw [hvisited, Nat.mul_comm slots 10, Nat.min_eq_right hcover, h.length_window_all]
    show min slots visited.length = min slots t.size
    rw [hlen]

omit [EntryPool] in
/-- The default pool: four keys in four buckets, and a sample of three. -/
theorem sampleSome_slice_three : letI := slabPool
    ∃ (t : Table) (out : List Ptr) (rngState' : UInt64), t.Inv ∧ t.size = 4 ∧
      t.sampleSome 3 5 = some (out, rngState') ∧ out.Nodup ∧ out.length = 3 := by
  let _ := slabPool
  have get {α : Type} (o : Option α) (h : o.isSome) : o = some (o.get h) := (Option.some_get h).symm
  let t₀ := (Table.new 4 7).get (by decide)
  let t₁ := ((Op.insert [1] [2]).run t₀).get (by decide)
  let t₂ := ((Op.insert [2] [2]).run t₁).get (by decide)
  let t₃ := ((Op.insert [3] [2]).run t₂).get (by decide)
  let t₄ := ((Op.insert [4] [2]).run t₃).get (by decide)
  have hnew : Table.new 4 7 = some t₀ := get _ _
  have hrun : Run t₀ [.insert [1] [2], .insert [2] [2], .insert [3] [2], .insert [4] [2]] t₄ :=
    .cons ⟨by decide, by decide⟩ (get _ _) <| .cons ⟨by decide, by decide⟩ (get _ _) <|
      .cons ⟨by decide, by decide⟩ (get _ _) <| .cons ⟨by decide, by decide⟩ (get _ _) <| .nil t₄
  have hinv : t₄.Inv := (hrun.inv (new_spec hnew).1).1
  have hsize : t₄.size = 4 := by decide
  obtain ⟨out, rngState', hout, -, hlen, hnodup, -, hcover, -⟩ := sampleSome_slice hinv 3 5
  refine ⟨t₄, out, rngState', hinv, hsize, hout, hnodup, ?_⟩
  rw [hlen, hcover (by decide), hsize]
  rfl

end Table

end TinyRedis

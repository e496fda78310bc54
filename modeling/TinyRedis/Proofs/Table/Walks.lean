import Mathlib.Data.Nat.ModEq
import TinyRedis.Proofs.Table.Remove

/-!
# `TinyRedis.Proofs.Table.Walks`: `sampleSome` and `scanBucket`

`Table.chain t i` is the list of blocks chained at bucket `i`, in order. `sampleSome_spec` reads the
sample off these lists: the chains of the buckets in the budget, from the drawn one on and round the
end of the array, cut at the number of slots. `sampleSome_eq` says so for empty tables as well, and
`sample_spec` what the sample is made of. `scanBucket_rule` is the rule of a scan step whose visitor
keeps the table or removes the entry it was handed.

* `Base.mem_chain_iff`, `chain_nodup`, `chain_disjoint`: the chains, as lists of blocks.
* `window`: the chains of some buckets, one after another.
* `sampleChain_eq`, `sampleLoop_eq`: the two loops of a sample, cut where the slots are full.
* `window_nodup`, `Base.window_all`: no block twice, and all of them when the budget is the table.
* `contents_visit_drop`, `contents_visit_keep`: the contents in the middle of a walk.

A visitor may remove the block it is handed and nothing else (`Visited`). The walk has read the link
of the block before, so it goes on with the rest of the chain.
-/

set_option autoImplicit false

namespace TinyRedis

open Lib

variable [EntryPool]

namespace Table

/-- The blocks chained at bucket `i`, in order. -/
def chain (t : Table) (i : Nat) : List Ptr :=
  ((t.buckets[i]?).bind fun head =>
    walk (fun _ => t.mem) Entry.next (fun p _ out => some (.yield (out ++ [p])))
      kPoolCapacity head []).getD []

namespace Base

variable {t : Table}

/-- The links from a bucket visit its chain. -/
theorem chain_spec (h : t.Base) {i : Nat} (hi : i < t.bucketCount) :
    ∃ head, t.buckets[i]? = some head ∧ Chain t.mem Entry.next head (t.chain i) := by
  obtain ⟨head, l, hhead, hl, -⟩ := h.chain_at hi
  have hwalk : ∃ out, walk (fun _ => t.mem) Entry.next
      (fun p _ out => some (.yield (out ++ [p]))) kPoolCapacity head [] = some out ∧ out = l := by
    refine walk_rule (fun todo out => out ++ todo = l) _ ?_ (by simp) l kPoolCapacity head []
      (h.chain_length_le hl) hl rfl
    rintro p todo out e hout - hrest -
    exact ⟨_, rfl, by simpa using hout, hrest⟩
  obtain ⟨out, hout, rfl⟩ := hwalk
  refine ⟨head, hhead, ?_⟩
  rw [chain, hhead, Option.bind_some, hout]
  exact hl

/-- A block is in the chain of its key's slot. -/
theorem mem_chain_iff (h : t.Base) {i : Nat} (hi : i < t.bucketCount) {p : Ptr} :
    p ∈ t.chain i ↔ ∃ k it, t.contents p = some (k, it) ∧
      slotOf t.bucketCount (hash32 t.hashSeed k) = i := by
  obtain ⟨head, l, hhead, hl, hmem⟩ := h.chain_at hi
  obtain ⟨head', hhead', hl'⟩ := h.chain_spec hi
  rw [hhead] at hhead'
  cases hhead'
  rw [hl'.unique hl]
  exact hmem p

/-- No block is in a chain twice. -/
theorem chain_nodup (h : t.Base) {i : Nat} (hi : i < t.bucketCount) : (t.chain i).Nodup := by
  obtain ⟨head, -, hl⟩ := h.chain_spec hi
  exact hl.nodup

/-- Two chains share no block. -/
theorem chain_disjoint (h : t.Base) {i j : Nat} (hi : i < t.bucketCount) (hj : j < t.bucketCount)
    {p : Ptr} (hpi : p ∈ t.chain i) (hpj : p ∈ t.chain j) : i = j := by
  obtain ⟨k, it, hc, rfl⟩ := (h.mem_chain_iff hi).mp hpi
  obtain ⟨k', it', hc', rfl⟩ := (h.mem_chain_iff hj).mp hpj
  rw [hc] at hc'
  cases hc'
  rfl

end Base

/-! ### `sampleSome` -/

/-- Masking with `n - 1` is taking the remainder by a power of two. -/
theorem Base.and_mask {t : Table} (h : t.Base) (i : Nat) :
    i &&& (t.bucketCount - 1) = i % t.bucketCount := by
  obtain ⟨k, hk⟩ := h.pow2
  rw [hk, Nat.and_two_pow_sub_one_eq_mod]

/-- The chain loop of `sampleSome` writes the chain until the slots are full. -/
theorem sampleChain_eq {t : Table} (h : t.Base) {head : Option Ptr} {l : List Ptr} {slots : Nat}
    {out : List Ptr} (hl : Chain t.mem Entry.next head l) :
    t.sampleChain slots head out = some (out ++ l.take (slots - out.length)) := by
  have hwalk : ∃ r, t.sampleChain slots head out = some r ∧
      r = out ++ l.take (slots - out.length) := by
    refine walk_rule (fun todo r => r ++ todo.take (slots - r.length)
      = out ++ l.take (slots - out.length)) _ ?_ (by simp) l kPoolCapacity head out
      (h.chain_length_le hl) hl rfl
    rintro p todo r e hr - hrest -
    split
    · next hlt =>
      refine ⟨_, rfl, ?_, hrest⟩
      obtain ⟨m, hm⟩ : ∃ m, slots - r.length = m + 1 :=
        Nat.exists_eq_succ_of_ne_zero (by omega)
      rw [← hr, hm, List.take_succ_cons, List.length_append, List.length_singleton,
        show slots - (r.length + 1) = m by omega, List.append_assoc, List.singleton_append]
    · next hge =>
      refine ⟨_, rfl, ?_⟩
      rw [show slots - r.length = 0 by omega, List.take_zero, List.append_nil] at hr
      exact hr
  obtain ⟨r, hr, rfl⟩ := hwalk
  exact hr

/-- The chains of `budget` consecutive buckets from `idx` on, round the end of the array. -/
def window (t : Table) (budget idx : Nat) : List Ptr :=
  (List.range budget).flatMap fun j => t.chain ((idx + j) % t.bucketCount)

/-- A window with one bucket more starts with the chain of its first one. -/
theorem window_succ (t : Table) (budget idx : Nat) :
    t.window (budget + 1) idx
      = t.chain (idx % t.bucketCount) ++ t.window budget ((idx + 1) % t.bucketCount) := by
  have hmod : ∀ j, ((idx + 1) % t.bucketCount + j) % t.bucketCount
      = (idx + (j + 1)) % t.bucketCount := by
    intro j
    rw [Nat.mod_add_mod, show idx + 1 + j = idx + (j + 1) by omega]
  simp only [window, List.range_succ_eq_map, List.flatMap_cons, List.flatMap_map, Nat.add_zero,
    hmod, Nat.succ_eq_add_one]

/-- The bucket loop of `sampleSome` writes the window until the slots are full. -/
theorem sampleLoop_eq {t : Table} (h : t.Base) {slots : Nat} :
    ∀ (budget idx : Nat) (out : List Ptr), idx < t.bucketCount → out.length ≤ slots →
      t.sampleLoop slots budget idx out
        = some (out ++ (t.window budget idx).take (slots - out.length)) := by
  intro budget
  induction budget with
  | zero =>
    intro idx out _ _
    simp [sampleLoop, window]
  | succ budget ih =>
    intro idx out hidx hout
    unfold sampleLoop
    split
    · next hlt =>
      obtain ⟨head, hhead, hl⟩ := h.chain_spec hidx
      have hnext : (idx + 1) &&& (t.bucketCount - 1) = (idx + 1) % t.bucketCount :=
        h.and_mask _
      simp only [hhead, Option.bind_eq_bind, Option.bind_some, sampleChain_eq h hl, hnext]
      rw [ih _ _ (Nat.mod_lt _ h.bucketCount_pos) (by
        simp only [List.length_append, List.length_take]
        omega), window_succ, Nat.mod_eq_of_lt hidx, List.take_append, List.append_assoc]
      congr 4
      simp only [List.length_append, List.length_take]
      omega
    · next hge =>
      rw [show slots - out.length = 0 by omega, List.take_zero, List.append_nil]

/-- The specification of `sampleSome` on a table that holds something: the generator draws the
start bucket, and the sample is the window of `min (10 * slots) bucketCount` buckets, cut at
`slots` entries. -/
theorem sampleSome_spec {t : Table} (h : t.Base) {slots : Nat} (hsize : t.size ≠ 0)
    (hslots : slots ≠ 0) (rngState : UInt64) :
    t.sampleSome slots rngState = some
      ((t.window (min (slots * 10) t.bucketCount)
        ((splitmix64 rngState).1.toNat % t.bucketCount)).take slots, (splitmix64 rngState).2) := by
  have hmod : (splitmix64 rngState).1.toNat &&& (t.bucketCount - 1)
      = (splitmix64 rngState).1.toNat % t.bucketCount := h.and_mask _
  rw [sampleSome, if_neg (by simp [hsize, hslots])]
  simp only [hmod, sampleLoop_eq h _ _ [] (Nat.mod_lt _ h.bucketCount_pos) (Nat.zero_le _),
    Option.bind_eq_bind, Option.bind_some, Option.pure_def, List.nil_append, List.length_nil,
    Nat.sub_zero]

/-- The members of a window. -/
theorem mem_window_iff {t : Table} (h : t.Base) {budget idx : Nat} {p : Ptr} :
    p ∈ t.window budget idx ↔ ∃ k it, t.contents p = some (k, it) ∧
      ∃ j < budget, slotOf t.bucketCount (hash32 t.hashSeed k) = (idx + j) % t.bucketCount := by
  simp only [window, List.mem_flatMap, List.mem_range]
  constructor
  · rintro ⟨j, hj, hp⟩
    obtain ⟨k, it, hc, hs⟩ := (h.mem_chain_iff (Nat.mod_lt _ h.bucketCount_pos)).mp hp
    exact ⟨k, it, hc, j, hj, hs⟩
  · rintro ⟨k, it, hc, j, hj, hs⟩
    exact ⟨j, hj, (h.mem_chain_iff (Nat.mod_lt _ h.bucketCount_pos)).mpr ⟨k, it, hc, hs⟩⟩

/-- A window that does not lap the array visits no block twice. -/
theorem window_nodup {t : Table} (h : t.Base) {budget idx : Nat} (hb : budget ≤ t.bucketCount) :
    (t.window budget idx).Nodup := by
  refine List.nodup_flatMap.mpr ⟨fun j _ => h.chain_nodup (Nat.mod_lt _ h.bucketCount_pos), ?_⟩
  refine List.Nodup.pairwise_of_forall_ne List.nodup_range fun i hi j hj hij => ?_
  intro p hpi hpj
  have heq := h.chain_disjoint (Nat.mod_lt _ h.bucketCount_pos) (Nat.mod_lt _ h.bucketCount_pos)
    hpi hpj
  rw [List.mem_range] at hi hj
  -- Two offsets below the bucket count with one remainder are equal.
  have hsub := Nat.ModEq.add_left_cancel' idx heq
  rw [Nat.ModEq, Nat.mod_eq_of_lt (by omega), Nat.mod_eq_of_lt (by omega)] at hsub
  exact hij hsub

omit [EntryPool] in
/-- From every start, as many buckets as there are reach every bucket. -/
theorem exists_add_mod_eq {n slot : Nat} (hslot : slot < n) (idx : Nat) :
    ∃ j < n, slot = (idx + j) % n := by
  have hn : 0 < n := Nat.lt_of_le_of_lt (Nat.zero_le _) hslot
  refine ⟨(slot + (n - idx % n)) % n, Nat.mod_lt _ hn, ?_⟩
  have hlt := Nat.mod_lt idx hn
  have hdiv := Nat.div_add_mod idx n
  have hsum : idx + (slot + (n - idx % n)) = slot + n * (idx / n + 1) := by
    rw [Nat.mul_add, Nat.mul_one]
    omega
  rw [Nat.add_mod_mod, hsum, Nat.add_mul_mod_self_left, Nat.mod_eq_of_lt hslot]

/-- The chains together are the outstanding blocks. -/
theorem Base.window_all {t : Table} (h : t.Base) (idx : Nat) :
    (t.window t.bucketCount idx).toFinset = EntryPool.outstanding t.pool := by
  ext p
  rw [List.mem_toFinset, mem_window_iff h, h.mem_outstanding_iff]
  exact exists_congr fun k => exists_congr fun it => and_iff_left_of_imp fun _ =>
    exists_add_mod_eq (slotOf_lt _ h.bucketCount_pos) idx

/-- All buckets together have as many blocks as the table has keys. -/
theorem Base.length_window_all {t : Table} (h : t.Base) (idx : Nat) :
    (t.window t.bucketCount idx).length = t.size := by
  rw [← List.toFinset_card_of_nodup (window_nodup h (Nat.le_refl _)), h.window_all, size, h.count]

/-- An empty table has nothing to sample. -/
theorem Base.window_of_empty {t : Table} (h : t.Base) (hsize : t.size = 0) (budget idx : Nat) :
    t.window budget idx = [] := by
  refine List.eq_nil_iff_forall_not_mem.mpr fun p hp => ?_
  obtain ⟨k, it, hc, -⟩ := (mem_window_iff h).mp hp
  have hpos := Finset.card_pos.mpr ⟨p, h.mem_outstanding_iff.mpr ⟨k, it, hc⟩⟩
  rw [← h.count] at hpos
  exact Nat.ne_of_gt hpos hsize

/-- The specification of `sampleSome` on every table: where it returns early, the window cut at
`slots` entries is empty too. Only the generator's state tells the two apart. -/
theorem sampleSome_eq {t : Table} (h : t.Base) (slots : Nat) (rngState : UInt64) :
    t.sampleSome slots rngState = some
      ((t.window (min (slots * 10) t.bucketCount)
          ((splitmix64 rngState).1.toNat % t.bucketCount)).take slots,
        if t.size = 0 ∨ slots = 0 then rngState else (splitmix64 rngState).2) := by
  by_cases hearly : t.size = 0 ∨ slots = 0
  · rw [sampleSome, if_pos hearly, if_pos hearly]
    rcases hearly with hsize | rfl
    · rw [h.window_of_empty hsize, List.take_nil]
    · rw [List.take_zero]
  · rw [if_neg hearly]
    rw [not_or] at hearly
    exact sampleSome_spec h hearly.1 hearly.2 rngState

/-- What a sample is made of: stored blocks, none twice, no more than the slots. -/
theorem sample_spec {t : Table} (h : t.Base) {slots : Nat} {r rng' : UInt64} {out : List Ptr}
    (hs : t.sampleSome slots r = some (out, rng')) :
    out.Nodup ∧ out.length ≤ slots ∧ ∀ p ∈ out, ∃ k it, t.contents p = some (k, it) := by
  rw [sampleSome_eq h] at hs
  cases hs
  refine ⟨(window_nodup h (Nat.min_le_right _ _)).sublist (List.take_sublist _ _),
    List.length_take_le _ _, fun p hp => ?_⟩
  obtain ⟨k, it, hc, -⟩ := (mem_window_iff h).mp (List.mem_of_mem_take hp)
  exact ⟨k, it, hc⟩

/-- A sample that may visit every bucket, and has a slot for every entry, is the whole table. -/
theorem mem_sample_of_contents {t : Table} (h : t.Base) {slots : Nat}
    (hslots : t.size ≤ slots) (hbuckets : t.bucketCount ≤ slots * 10) {r rng' : UInt64}
    {out : List Ptr} (hs : t.sampleSome slots r = some (out, rng')) {p : Ptr} {k : Bytes}
    {it : Item} (hc : t.contents p = some (k, it)) : p ∈ out := by
  rw [sampleSome_eq h, Nat.min_eq_right hbuckets] at hs
  cases hs
  rw [List.take_of_length_le (by rwa [h.length_window_all]), ← List.mem_toFinset, h.window_all]
  exact h.mem_outstanding_iff.mpr ⟨k, it, hc⟩

/-! ### `scanBucket` -/

/-- The visitor handed `p` keeps the table or removes `p`. -/
def Visited (p : Ptr) (t t' : Table) : Prop := t' = t ∨ t.remove p = some t'

/-- The rule of one scan step. `J todo t s` is the invariant with the blocks `todo` of the
chain still to visit. -/
theorem scanBucket_rule {σ : Type} {t : Table} (h : t.Inv) (cursor : Nat)
    (visit : Ptr → Table × σ → Option (Table × σ)) {s : σ} (J : List Ptr → Table → σ → Prop)
    (step : ∀ p todo t s k it, t.Inv → t.contents p = some (k, it) → p ∉ todo →
      J (p :: todo) t s →
      ∃ t' s', visit p (t, s) = some (t', s') ∧ Visited p t t' ∧ J todo t' s')
    (start : J (t.chain (cursor % t.bucketCount)) t s) :
    ∃ t' s', t.scanBucket cursor visit s
        = some (nextCursor cursor (t.bucketCount - 1), t', s') ∧ t'.Inv ∧ J [] t' s' := by
  have hmask : cursor &&& (t.bucketCount - 1) = cursor % t.bucketCount := h.and_mask _
  obtain ⟨head, hhead, hl⟩ := h.chain_spec (Nat.mod_lt cursor h.bucketCount_pos)
  have hwalk : ∃ r, walk (fun s : Table × σ => s.1.mem) Entry.next
      (fun p _ s => (visit p s).map .yield) kPoolCapacity head (t, s) = some r ∧
      r.1.Inv ∧ J [] r.1 r.2 := by
    refine walk_rule (fun todo (r : Table × σ) => r.1.Inv ∧ J todo r.1 r.2) _ ?_
      (fun r hr => hr) _ _ _ _
      (h.chain_length_le hl) hl ⟨h, start⟩
    rintro p todo ⟨t, s⟩ e ⟨hinv, hJ⟩ he hrest hp
    obtain ⟨k, v, -, -, hc⟩ := hinv.contents_eq he
    obtain ⟨t', s', hvisit, hkeep, hJ'⟩ := step p todo t s k _ hinv hc hp hJ
    refine ⟨.yield (t', s'), by simp [hvisit], ?_⟩
    -- The walk has read `next` before the visit. A removal leaves that chain as it was.
    rcases hkeep with rfl | hrem
    · exact ⟨⟨hinv, hJ'⟩, hrest⟩
    · obtain ⟨t'', ht'', hinv', -, -, -, -, hchain⟩ := remove_spec hinv hc
      rw [hrem] at ht''
      cases ht''
      exact ⟨⟨hinv', hJ'⟩, hchain e todo he hrest⟩
  obtain ⟨⟨t', s'⟩, hr, hinv, hJ⟩ := hwalk
  refine ⟨t', s', ?_, hinv, hJ⟩
  rw [scanBucket, hmask, hhead]
  simp only [Option.bind_eq_bind, Option.bind_some, hr, Option.pure_def]

/-! ### Contents after some visits

The visits so far are `done`, and those of them that `drop` picks are out. -/

section Visits

variable {c c₀ : Ptr → Option (Bytes × Item)} {drop : Ptr → Bool} {done : List Ptr} {p : Ptr}

omit [EntryPool] in
/-- One more visit takes out the entry it was handed. -/
theorem contents_visit_drop (h : ∀ q, c q = if q ∈ done ∧ drop q then none else c₀ q)
    (hp : drop p = true) :
    ∀ q, Function.update c p none q = if q ∈ done ++ [p] ∧ drop q then none else c₀ q := by
  intro q
  by_cases hq : q = p
  · subst hq
    simp [hp]
  · rw [Function.update_of_ne hq, h]
    simp [hq]

omit [EntryPool] in
/-- One more visit keeps the entry it was handed. -/
theorem contents_visit_keep (h : ∀ q, c q = if q ∈ done ∧ drop q then none else c₀ q)
    (hp : drop p = false) : ∀ q, c q = if q ∈ done ++ [p] ∧ drop q then none else c₀ q := by
  intro q
  rw [h]
  by_cases hq : q = p
  · subst hq
    simp [hp]
  · simp [hq]

end Visits

end Table

end TinyRedis

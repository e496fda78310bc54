import TinyRedis.Core.Store
import TinyRedis.Lib.Words
import TinyRedis.Proofs.Table.View

/-!
# `TinyRedis.Proofs.Store.Sample`: the sampling loop of `evictOne` ends

`sampleSome` may draw a start bucket from which it finds nothing, and `evictOne` then draws again.
The generator adds an odd constant to its state and mixes the state by a permutation, so in one
period it draws every 64-bit word, and with it the bucket of any stored key.

* `splitmixMix_bijective`: the mixing is a permutation. Each of its steps is one: a shift and an
  exclusive or, or a product with an odd number.
* `afterDraws_eq`, `exists_afterDraws_eq`: the state after `n` draws, and that it takes every value.
* `exists_splitmix64_eq`: so every word is drawn, within `2 ^ 64` draws.
* `exists_sample_ne_nil`, `exists_first_sample`: one of them finds an entry, and there is a first.
* `sampleRetry_spec`, `sampleRetry_ends`: the loop of the source ends there.

The bound is that of the period, and says that the loop ends, not that it ends soon. In a table with
many keys a draw finds nothing only when its whole budget of buckets is empty.
-/

set_option autoImplicit false

namespace TinyRedis

open Lib

/-- The increment of the generator. -/
def splitmixGamma : UInt64 := 0x9e3779b97f4a7c15

/-- The output mixing of the generator. -/
def splitmixMix (z : UInt64) : UInt64 :=
  let z := (z ^^^ (z >>> 30)) * 0xbf58476d1ce4e5b9
  let z := (z ^^^ (z >>> 27)) * 0x94d049bb133111eb
  z ^^^ (z >>> 31)

/-- A draw advances the state by the constant, and mixes it. -/
theorem splitmix64_eq (state : UInt64) :
    splitmix64 state = (splitmixMix (state + splitmixGamma), state + splitmixGamma) := rfl

/-- The mixing is a permutation. -/
theorem splitmixMix_injective : Function.Injective splitmixMix := by
  have h₁ := xorShiftRight_injective (k := 30) (by decide)
  have h₂ := mul_right_injective_of_inverse (a := 0xbf58476d1ce4e5b9) (b := 0x96de1b173f119089)
    (by decide)
  have h₃ := xorShiftRight_injective (k := 27) (by decide)
  have h₄ := mul_right_injective_of_inverse (a := 0x94d049bb133111eb) (b := 0x319642b2d24d8ec3)
    (by decide)
  have h₅ := xorShiftRight_injective (k := 31) (by decide)
  exact h₅.comp (h₄.comp (h₃.comp (h₂.comp h₁)))

/-- The mixing is a permutation of the 64-bit words. -/
theorem splitmixMix_bijective : Function.Bijective splitmixMix :=
  ⟨splitmixMix_injective, surjective_of_injective splitmixMix_injective⟩

/-- The state of the generator after `n` draws. -/
def afterDraws (state : UInt64) : Nat → UInt64
  | 0 => state
  | n + 1 => (splitmix64 (afterDraws state n)).2

/-- The state after `n` draws. -/
theorem afterDraws_eq (state : UInt64) (n : Nat) :
    afterDraws state n = state + UInt64.ofNat n * splitmixGamma := by
  induction n with
  | zero => rw [show UInt64.ofNat 0 = 0 from rfl, UInt64.zero_mul, UInt64.add_zero, afterDraws]
  | succ n ih =>
    rw [afterDraws, splitmix64_eq, ih, UInt64.ofNat_add, UInt64.add_mul, UInt64.add_assoc,
      show UInt64.ofNat 1 = 1 from rfl, UInt64.one_mul]

/-- The draws that follow the first one. -/
theorem afterDraws_succ (state : UInt64) (n : Nat) :
    afterDraws (splitmix64 state).2 n = afterDraws state (n + 1) := by
  induction n with
  | zero => rw [afterDraws, afterDraws, afterDraws]
  | succ n ih => rw [afterDraws, ih, ← afterDraws]

/-- In one period, the state runs through every word. -/
theorem exists_afterDraws_eq (state w : UInt64) : ∃ n < 2 ^ 64, afterDraws state n = w := by
  obtain ⟨n, hn, hw⟩ := exists_add_mul_eq (g := splitmixGamma) (b := 0xf1de83e19937733d)
    (by decide) state w
  exact ⟨n, hn, (afterDraws_eq state n).trans hw⟩

/-- In one period, the generator draws every word. -/
theorem exists_splitmix64_eq (state w : UInt64) :
    ∃ n < 2 ^ 64, (splitmix64 (afterDraws state n)).1 = w := by
  obtain ⟨z, hz⟩ := splitmixMix_bijective.surjective w
  obtain ⟨n, hn, hnz⟩ := exists_afterDraws_eq state (z - splitmixGamma)
  refine ⟨n, hn, ?_⟩
  rw [splitmix64_eq, hnz, UInt64.sub_add_cancel, hz]

variable [EntryPool]

namespace Table

variable {t : Table}

/-- In one period, every bucket is drawn as the start of a sample. -/
theorem exists_start_eq {b : Nat} (hb : b < t.bucketCount) (hb' : b < 2 ^ 64) (rngState : UInt64) :
    ∃ n < 2 ^ 64, (splitmix64 (afterDraws rngState n)).1.toNat % t.bucketCount = b := by
  obtain ⟨n, hn, hdraw⟩ := exists_splitmix64_eq rngState (UInt64.ofNat b)
  refine ⟨n, hn, ?_⟩
  rw [hdraw, UInt64.toNat_ofNat_of_lt' hb']
  exact Nat.mod_eq_of_lt hb

/-- A call of `sampleSome` draws once, whatever it finds. -/
theorem sampleSome_afterDraws (h : t.Base) (hsize : t.size ≠ 0) {slots : Nat} (hslots : slots ≠ 0)
    (rngState : UInt64) (n : Nat) :
    ∃ out, t.sampleSome slots (afterDraws rngState n) = some (out, afterDraws rngState (n + 1)) :=
  ⟨_, sampleSome_spec h hsize hslots _⟩

/-- Some draw of a period starts the sample at a bucket that holds something. -/
theorem exists_sample_ne_nil (h : t.Base) (hsize : t.size ≠ 0) {slots : Nat} (hslots : slots ≠ 0)
    (rngState : UInt64) :
    ∃ n < 2 ^ 64, ∃ out, out ≠ [] ∧
      t.sampleSome slots (afterDraws rngState n) = some (out, afterDraws rngState (n + 1)) := by
  -- A stored block, and the bucket of its key.
  obtain ⟨p, hp⟩ : ∃ p, p ∈ EntryPool.outstanding t.pool := by
    rw [size, h.count] at hsize
    exact Finset.card_pos.mp (Nat.pos_of_ne_zero hsize)
  obtain ⟨k, it, hc⟩ := h.mem_outstanding_iff.mp hp
  have hbucket := slotOf_lt (hash32 t.hashSeed k) h.bucketCount_pos
  have hslot : slotOf t.bucketCount (hash32 t.hashSeed k) < 2 ^ 64 :=
    Nat.lt_of_le_of_lt Nat.and_le_left
      (Nat.lt_trans (UInt32.toNat_lt _) (by decide))
  obtain ⟨n, hn, hstart⟩ := exists_start_eq hbucket hslot rngState
  refine ⟨n, hn, _, ?_, sampleSome_spec h hsize hslots _⟩
  have hmem : p ∈ t.window (min (slots * 10) t.bucketCount)
      (slotOf t.bucketCount (hash32 t.hashSeed k)) := by
    have hpos : 0 < t.bucketCount := h.bucketCount_pos
    refine (mem_window_iff h).mpr ⟨k, it, hc, 0, by omega, ?_⟩
    exact (Nat.mod_eq_of_lt hbucket).symm
  rw [hstart, Ne, List.take_eq_nil_iff, not_or]
  exact ⟨hslots, List.ne_nil_of_mem hmem⟩

/-- The first draw whose sample is not empty. -/
theorem exists_first_sample (h : t.Base) (hsize : t.size ≠ 0) {slots : Nat} (hslots : slots ≠ 0)
    (rngState : UInt64) :
    ∃ n < 2 ^ 64,
      (∀ m < n, t.sampleSome slots (afterDraws rngState m)
        = some ([], afterDraws rngState (m + 1))) ∧
      ∃ out, out ≠ [] ∧
        t.sampleSome slots (afterDraws rngState n) = some (out, afterDraws rngState (n + 1)) := by
  classical
  have hexists := exists_sample_ne_nil h hsize hslots rngState
  obtain ⟨hn, hfirst⟩ := Nat.find_spec hexists
  refine ⟨Nat.find hexists, hn, fun m hm => ?_, hfirst⟩
  obtain ⟨out, hout⟩ := sampleSome_afterDraws h hsize hslots rngState m
  -- A sample before the first that is not empty is empty.
  have hempty : out = [] := by
    by_contra hne
    exact Nat.find_min hexists hm ⟨Nat.lt_trans hm hn, out, hne, hout⟩
  rw [hout, hempty]

end Table

namespace Store

/-- The retry loop returns the first sample that is not empty, if one comes in time. -/
theorem sampleRetry_of_first {t : Table} {slots : Nat} {out : List Ptr} (hout : out ≠ [])
    (n : Nat) :
    ∀ (tries : Nat) (rngState : UInt64), n < tries →
      (∀ m < n, t.sampleSome slots (afterDraws rngState m)
        = some ([], afterDraws rngState (m + 1))) →
      t.sampleSome slots (afterDraws rngState n) = some (out, afterDraws rngState (n + 1)) →
      sampleRetry t slots tries rngState = some (out, afterDraws rngState (n + 1)) := by
  induction n with
  | zero =>
    rintro (- | tries) rngState htries - hfirst
    · omega
    · have hfirst' : t.sampleSome slots rngState = _ := hfirst
      simp [sampleRetry, hfirst', hout]
  | succ n ih =>
    rintro (- | tries) rngState htries hempty hfirst
    · omega
    · -- An empty sample moves the generator by one draw.
      have hnow : t.sampleSome slots rngState = some ([], (splitmix64 rngState).2) :=
        hempty 0 (Nat.succ_pos n)
      have hrest := ih tries (splitmix64 rngState).2 (by omega)
        (fun m hm => by
          rw [afterDraws_succ, afterDraws_succ]
          exact hempty (m + 1) (Nat.succ_lt_succ hm))
        (by rw [afterDraws_succ, afterDraws_succ]; exact hfirst)
      rw [afterDraws_succ] at hrest
      simp [sampleRetry, hnow, hrest]

/-- The sampling loop of `evictOne` ends on every table that holds something. -/
theorem sampleRetry_spec {t : Table} (h : t.Base) {slots : Nat} (hsize : t.size ≠ 0)
    (hslots : slots ≠ 0) (rngState : UInt64) :
    ∃ r out rng', sampleRetry t slots (2 ^ 64) rngState = some (out, rng') ∧ out ≠ [] ∧
      t.sampleSome slots r = some (out, rng') := by
  obtain ⟨n, hn, hempty, out, hout, hfirst⟩ := Table.exists_first_sample h hsize hslots rngState
  exact ⟨_, out, _, sampleRetry_of_first hout n _ rngState hn hempty hfirst, hout, hfirst⟩

/-- The retry loop of `evictOne` ends. On a table that holds something, from every generator state,
one of the first `2 ^ 64` calls of `sampleSome` returns a positive count, and the loop returns that
sample. For the state runs through every word and its mixing is a permutation, so every bucket is
drawn as the start of a sample. -/
theorem sampleRetry_ends {t : Table} (h : t.Inv) (hsize : t.size ≠ 0) {slots : Nat}
    (hslots : 1 ≤ slots) (rngState : UInt64) :
    (∃ n < 2 ^ 64,
      (∀ m < n, t.sampleSome slots (afterDraws rngState m)
        = some ([], afterDraws rngState (m + 1))) ∧
      ∃ out, 0 < out.length ∧
        t.sampleSome slots (afterDraws rngState n) = some (out, afterDraws rngState (n + 1)) ∧
        sampleRetry t slots (2 ^ 64) rngState = some (out, afterDraws rngState (n + 1))) ∧
    (∀ w, ∃ n < 2 ^ 64, afterDraws rngState n = w) ∧ Function.Bijective splitmixMix ∧
    ∀ b < t.bucketCount, b < 2 ^ 64 → ∃ n < 2 ^ 64,
      (splitmix64 (afterDraws rngState n)).1.toNat &&& (t.bucketCount - 1) = b := by
  refine ⟨?_, exists_afterDraws_eq rngState, splitmixMix_bijective, fun b hb hb' => ?_⟩
  case refine_2 =>
    obtain ⟨n, hn, hstart⟩ := Table.exists_start_eq hb hb' rngState
    exact ⟨n, hn, (h.and_mask _).trans hstart⟩
  obtain ⟨n, hn, hempty, out, hout, hfirst⟩ :=
    Table.exists_first_sample h.toBase hsize (Nat.ne_of_gt hslots) rngState
  exact ⟨n, hn, hempty, out, List.length_pos_iff.mpr hout, hfirst,
    sampleRetry_of_first hout n _ rngState hn hempty hfirst⟩

omit [EntryPool] in
/-- One key in a table of many buckets, where most draws find nothing. -/
theorem sampleRetry_ends_sparse : letI := slabPool
    ∃ (t₀ t : Table) (p : Ptr), Table.new 4096 7 = some t₀ ∧ t₀.insert [1] [2] = some (some p, t) ∧
      ∃ out rng', sampleRetry t 1 (2 ^ 64) 42 = some (out, rng') ∧ 0 < out.length := by
  let _ := slabPool
  obtain ⟨n, hn⟩ := Table.nextPow2_isSome (show 4096 ≤ 2 ^ 63 by decide)
  have hnew : ∃ t₀, Table.new 4096 7 = some t₀ := by
    rw [Table.new, hn]
    exact ⟨_, rfl⟩
  obtain ⟨t₀, hnew⟩ := hnew
  obtain ⟨hinv₀, hempty, hcount, -⟩ := Table.new_spec hnew
  have habsent : t₀.view [1] = none := congrFun (Table.view_empty hinv₀.toBase hempty) [1]
  have hfit : ([1] : Bytes).length + ([2] : Bytes).length < 2 ^ 32 := by decide
  rcases Table.insert_spec hinv₀ hfit habsent with ⟨hfull, -⟩ |
    ⟨p, t, hins, hinv, -, -, hlive, -⟩
  · rw [hcount] at hfull
    exact absurd hfull (by decide)
  · have hsize : t.size ≠ 0 := by rw [Table.size, hlive]; omega
    obtain ⟨⟨n, -, -, out, hpos, -, hretry⟩, -⟩ := sampleRetry_ends hinv hsize (Nat.le_refl 1) 42
    exact ⟨t₀, t, p, hnew, hins, out, _, hretry, hpos⟩

end Store

end TinyRedis

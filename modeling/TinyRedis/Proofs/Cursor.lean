import TinyRedis.Core.Bits
import TinyRedis.Lib.BitReversal

/-!
# `TinyRedis.Proofs.Cursor`: the reverse-binary cursor

`reverseBits` under the mask `2 ^ k - 1` is the bit reversal of `TinyRedis.Lib.BitReversal`, and
`nextCursor` adds one to the reversed cursor. The *rank* of a cursor is its reversal: a cycle goes
through the ranks in order, from `0` to `2 ^ k - 1`, and then back to the cursor `0`.

* `nextCursor_eq`: one step, in terms of ranks.
* `cursorAt_eq`: `i` steps from the cursor `0` lead to the cursor of rank `i`.
* `precedes_iff`: a bucket comes before a cursor in the cycle when its rank is the smaller one.
* `nextCursor_cycle`: the cycle visits every cursor once, and the cycle of a wider mask has the same
  cursors behind it, up to their low bits.

The last part is why the source counts in this order. When the table doubles, a bucket splits into
two whose ranks are next to each other, so a cursor in the middle of the old cycle divides the new
buckets as it divided the old ones.
-/

set_option autoImplicit false

namespace TinyRedis

open Lib

/-- The loop of `reverseBits` shifts the bits out of `v` and into `out`. -/
theorem reverseLoop_eq (k : Nat) : ∀ (rounds v out : Nat), k ≤ rounds →
    reverseLoop rounds (2 ^ k - 1) v out = out * 2 ^ k + revBits k v := by
  induction k with
  | zero =>
    intro rounds v out _
    cases rounds <;> simp [reverseLoop, revBits]
  -- One round moves the lowest bit of `v` to the bottom of `out`; the mask counts the rounds.
  | succ k ih =>
    intro rounds v out hk
    obtain ⟨rounds, rfl⟩ : ∃ n, rounds = n + 1 := Nat.exists_eq_add_one.mpr (by omega)
    have hpow := Nat.one_lt_two_pow (Nat.succ_ne_zero k)
    have hmask : (2 ^ (k + 1) - 1) >>> 1 = 2 ^ k - 1 := by
      rw [Nat.shiftRight_eq_div_pow, Nat.pow_succ]
      omega
    have hout : (out <<< 1) ||| (v &&& 1) = 2 * out + v % 2 := by
      rw [Nat.and_one_is_mod, Nat.shiftLeft_eq, Nat.pow_one, Nat.mul_comm,
        ← Nat.two_pow_add_eq_or_of_lt (i := 1) (by omega), Nat.pow_one]
    rw [reverseLoop, if_neg (by omega), hmask, hout, Nat.shiftRight_eq_div_pow, Nat.pow_one,
      ih rounds _ _ (by omega), revBits, Nat.pow_succ]
    ring

/-- The loop of the source has enough rounds for a mask of up to 64 bits. -/
theorem reverseBits_eq {k : Nat} (hk : k ≤ 64) (v : Nat) :
    reverseBits v (2 ^ k - 1) = revBits k v := by
  rw [reverseBits, reverseLoop_eq k 64 v 0 hk, Nat.zero_mul, Nat.zero_add]

/-- The next cursor, through the ranks. -/
theorem nextCursor_eq {k : Nat} (hk : k ≤ 64) (cursor : Nat) :
    nextCursor cursor (2 ^ k - 1)
      = if revBits k cursor + 1 = 2 ^ k then 0 else revBits k (revBits k cursor + 1) := by
  have hlt := revBits_lt k cursor
  simp only [nextCursor, reverseBits_eq hk]
  by_cases hend : revBits k cursor + 1 = 2 ^ k
  · rw [if_pos hend, if_pos (by omega)]
  · rw [if_neg hend, if_neg (by omega)]

/-- The cursor stays in the table. -/
theorem nextCursor_lt {k : Nat} (hk : k ≤ 64) (cursor : Nat) :
    nextCursor cursor (2 ^ k - 1) < 2 ^ k := by
  rw [nextCursor_eq hk]
  split
  · exact Nat.two_pow_pos k
  · exact revBits_lt k _

/-- The cursor comes back to `0` exactly after the last rank. -/
theorem nextCursor_eq_zero_iff {k : Nat} (hk : k ≤ 64) (cursor : Nat) :
    nextCursor cursor (2 ^ k - 1) = 0 ↔ revBits k cursor + 1 = 2 ^ k := by
  rw [nextCursor_eq hk]
  constructor
  · intro h
    by_contra hend
    have hlt := revBits_lt k cursor
    rw [if_neg hend] at h
    have hinv := revBits_revBits k (revBits k cursor + 1)
    rw [h, revBits_zero, Nat.mod_eq_of_lt (by omega)] at hinv
    omega
  · intro h
    rw [if_pos h]

/-- A step that does not end the cycle goes to the next rank. -/
theorem revBits_nextCursor {k : Nat} (hk : k ≤ 64) {cursor : Nat}
    (h : nextCursor cursor (2 ^ k - 1) ≠ 0) :
    revBits k (nextCursor cursor (2 ^ k - 1)) = revBits k cursor + 1 := by
  have hend : revBits k cursor + 1 ≠ 2 ^ k := fun he =>
    h ((nextCursor_eq_zero_iff hk cursor).mpr he)
  have hlt := revBits_lt k cursor
  rw [nextCursor_eq hk, if_neg hend, revBits_revBits, Nat.mod_eq_of_lt (by omega)]

/-! ### The cycle from the cursor `0` -/

/-- The cursor after `i` calls of `nextCursor` from `0`, under the mask `2 ^ k - 1`. -/
def cursorAt (k i : Nat) : Nat := (fun cursor => nextCursor cursor (2 ^ k - 1))^[i] 0

/-- In the cycle of width `k`, the cursor `v` comes up before `c` does. -/
def Precedes (k v c : Nat) : Prop :=
  ∃ i j, i < j ∧ j < 2 ^ k ∧ cursorAt k i = v ∧ cursorAt k j = c

/-- One step later. -/
theorem cursorAt_succ (k i : Nat) :
    cursorAt k (i + 1) = nextCursor (cursorAt k i) (2 ^ k - 1) :=
  Function.iterate_succ_apply' _ i 0

/-- Before the cycle ends, the cursor after `i` steps is the one of rank `i`. -/
theorem cursorAt_eq {k : Nat} (hk : k ≤ 64) (i : Nat) (hi : i < 2 ^ k) :
    cursorAt k i = revBits k i := by
  induction i with
  | zero => rw [revBits_zero, cursorAt, Function.iterate_zero_apply]
  | succ i ih =>
    have hrank : revBits k (revBits k i) = i := by
      rw [revBits_revBits, Nat.mod_eq_of_lt (by omega)]
    rw [cursorAt_succ, ih (by omega), nextCursor_eq hk, hrank, if_neg (by omega)]

/-- The rank of the cursor after `i` steps is `i`. -/
theorem revBits_cursorAt {k : Nat} (hk : k ≤ 64) {i : Nat} (hi : i < 2 ^ k) :
    revBits k (cursorAt k i) = i := by
  rw [cursorAt_eq hk i hi, revBits_revBits, Nat.mod_eq_of_lt hi]

/-- Every cursor comes up, at its rank. -/
theorem cursorAt_revBits {k : Nat} (hk : k ≤ 64) {v : Nat} (hv : v < 2 ^ k) :
    cursorAt k (revBits k v) = v := by
  rw [cursorAt_eq hk _ (revBits_lt k v), revBits_revBits, Nat.mod_eq_of_lt hv]

/-- The step after the last rank ends the cycle. -/
theorem cursorAt_two_pow {k : Nat} (hk : k ≤ 64) : cursorAt k (2 ^ k) = 0 := by
  obtain ⟨last, hlast⟩ : ∃ n, 2 ^ k = n + 1 := Nat.exists_eq_add_one.mpr (Nat.two_pow_pos k)
  rw [hlast, cursorAt_succ, nextCursor_eq_zero_iff hk, revBits_cursorAt hk (by omega), hlast]

/-- The order in which the cursors come up is the order of the ranks. -/
theorem precedes_iff {k : Nat} (hk : k ≤ 64) {v c : Nat} (hv : v < 2 ^ k) (hc : c < 2 ^ k) :
    Precedes k v c ↔ revBits k v < revBits k c := by
  constructor
  · rintro ⟨i, j, hij, hj, rfl, rfl⟩
    rwa [revBits_cursorAt hk hj, revBits_cursorAt hk (Nat.lt_trans hij hj)]
  · intro hlt
    exact ⟨_, _, hlt, revBits_lt k c, cursorAt_revBits hk hv, cursorAt_revBits hk hc⟩

/-- `nextCursor` runs through one full cycle under every mask a `size_t` holds, and the cycles
of the masks agree. From `0` it visits each of the `2 ^ k` cursors once, and only then is it at
`0` again. Before a cursor `c` of width `k`, a wider cycle visits exactly the cursors whose low
`k` bits come before `c` in the narrow one, so a scan can keep its cursor while the table
doubles. -/
theorem nextCursor_cycle {k : Nat} (hk : k ≤ 64) :
    (∀ i < 2 ^ k, cursorAt k i < 2 ^ k) ∧
      (∀ v < 2 ^ k, ∃! i, i < 2 ^ k ∧ cursorAt k i = v) ∧
      cursorAt k (2 ^ k) = 0 ∧ (∀ i, 0 < i → i < 2 ^ k → cursorAt k i ≠ 0) ∧
      ∀ c < 2 ^ k, ∀ k', k ≤ k' → k' ≤ 64 → ∀ v < 2 ^ k',
        (Precedes k' v c ↔ Precedes k (v &&& (2 ^ k - 1)) c) := by
  refine ⟨fun i hi => ?_, fun v hv => ?_, cursorAt_two_pow hk, fun i hpos hi hzero => ?_,
    fun c hc k' hkk hk' v hv => ?_⟩
  · rw [cursorAt_eq hk i hi]
    exact revBits_lt k i
  · refine ⟨revBits k v, ⟨revBits_lt k v, cursorAt_revBits hk hv⟩, ?_⟩
    rintro i ⟨hi, rfl⟩
    exact (revBits_cursorAt hk hi).symm
  · have hrank := revBits_cursorAt hk hi
    rw [hzero, revBits_zero] at hrank
    omega
  -- The low bits of a cursor are the high ones of its rank, so they decide the comparison.
  · have hc' : c < 2 ^ k' := Nat.lt_of_lt_of_le hc (Nat.pow_le_pow_right (by decide) hkk)
    have hlow : v % 2 ^ k < 2 ^ k := Nat.mod_lt v (Nat.two_pow_pos k)
    rw [Nat.and_two_pow_sub_one_eq_mod, precedes_iff hk' hv hc', precedes_iff hk hlow hc,
      revBits_mod, revBits_lt_iff_of_le hc hkk]

/-- Eight buckets become sixteen while the cursor is at `6`. In the cycle of eight, `4` was
before `6`, so bucket `12`, which took over a part of bucket `4`, is behind the cursor. -/
theorem nextCursor_cycle_doubled :
    (∃! i, i < 2 ^ 3 ∧ cursorAt 3 i = 6) ∧ Precedes 3 (12 &&& 7) 6 ∧ Precedes 4 12 6 := by
  obtain ⟨-, honce, -, -, hwide⟩ := @nextCursor_cycle 3 (by decide)
  have hnarrow : Precedes 3 (12 &&& 7) 6 := ⟨1, 3, by decide⟩
  exact ⟨honce 6 (by decide), hnarrow,
    (hwide 6 (by decide) 4 (by decide) (by decide) 12 (by decide)).mpr hnarrow⟩

end TinyRedis

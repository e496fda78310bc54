import Mathlib.Data.Nat.Basic
import Mathlib.Tactic.Ring

/-!
# `TinyRedis.Lib.BitReversal`: reversing the low bits of a number

`revBits k v` reverses the low `k` bits of `v`. A cursor that counts in reversed bits visits the
numbers below `2 ^ k` in the order of their reversals, and what makes it useful is how that order
changes when one more bit counts.

* `revBits` takes the lowest bit off first. `revBits_succ_high` is the other recursion, which takes
  the highest off.
* `revBits_revBits`: reversal undoes itself, so it is a permutation of the numbers below `2 ^ k`,
  and `revBits_eq_iff` says when two numbers have the same reversal.
* `revBits_lt_iff_of_le`: further bits refine the order. A number that comes before a short one with
  `k` bits still does with more of them, and one that comes after it still does too.
* `revBits_le_of_le`: the reversal of a short number only grows with the number of bits.

All of it is by induction on the number of bits.
-/

set_option autoImplicit false

namespace TinyRedis.Lib

/-- The low `k` bits of `v`, reversed. -/
def revBits : (k v : Nat) → Nat
  | 0, _ => 0
  | k + 1, v => v % 2 * 2 ^ k + revBits k (v / 2)

/-- A reversal has no more bits than are reversed. -/
theorem revBits_lt (k : Nat) : ∀ v, revBits k v < 2 ^ k := by
  induction k with
  | zero =>
    intro v
    exact Nat.one_pos
  | succ k ih =>
    intro v
    have hrest := ih (v / 2)
    have hbit : v % 2 * 2 ^ k ≤ 1 * 2 ^ k := Nat.mul_le_mul_right _ (by omega)
    rw [revBits, Nat.pow_succ]
    omega

/-- The highest of the bits becomes the lowest. -/
theorem revBits_succ_high (k : Nat) : ∀ v, revBits (k + 1) v = 2 * revBits k v + v / 2 ^ k % 2 := by
  induction k with
  | zero =>
    intro v
    simp [revBits]
  | succ k ih =>
    intro v
    have hdiv : v / 2 / 2 ^ k = v / 2 ^ (k + 1) := by rw [Nat.div_div_eq_div_mul, Nat.pow_succ']
    -- Both sides have the low bit of `v` on top, and the reversal of the rest is the hypothesis.
    rw [revBits, ih (v / 2), hdiv, revBits, Nat.pow_succ]
    ring

/-- Only the low bits count. -/
theorem revBits_mod (k : Nat) : ∀ v, revBits k (v % 2 ^ k) = revBits k v := by
  induction k with
  | zero =>
    intro v
    rfl
  | succ k ih =>
    intro v
    have hlow : v % 2 ^ (k + 1) % 2 = v % 2 := Nat.mod_mod_of_dvd _ (Dvd.intro_left _ rfl)
    have hrest : v % 2 ^ (k + 1) / 2 = v / 2 % 2 ^ k := by
      rw [Nat.pow_succ', Nat.mod_mul_right_div_self]
    rw [revBits, revBits, hlow, hrest, ih]

/-- Reversal undoes itself. -/
theorem revBits_revBits (k : Nat) : ∀ v, revBits k (revBits k v) = v % 2 ^ k := by
  induction k with
  | zero =>
    intro v
    simp [revBits, Nat.mod_one]
  | succ k ih =>
    intro v
    -- The outer reversal takes off the bit that the inner one put on top.
    have hlt := revBits_lt k (v / 2)
    have htop : revBits (k + 1) v / 2 ^ k % 2 = v % 2 := by
      rw [revBits, Nat.add_comm, Nat.add_mul_div_right _ _ (Nat.two_pow_pos k),
        Nat.div_eq_of_lt hlt, Nat.zero_add, Nat.mod_mod]
    have hrest : revBits (k + 1) v % 2 ^ k = revBits k (v / 2) := by
      rw [revBits, Nat.add_comm, Nat.add_mul_mod_self_right, Nat.mod_eq_of_lt hlt]
    rw [revBits_succ_high, htop, ← revBits_mod, hrest, ih, Nat.pow_succ', Nat.mod_mul]
    omega

/-- Numbers with the same low bits have the same reversal, and no others. -/
theorem revBits_eq_iff {k v w : Nat} : revBits k v = revBits k w ↔ v % 2 ^ k = w % 2 ^ k := by
  constructor
  · intro h
    have hrev := congrArg (revBits k) h
    rwa [revBits_revBits, revBits_revBits] at hrev
  · intro h
    rw [← revBits_mod k v, h, revBits_mod]

/-- Zero is its own reversal. -/
@[simp] theorem revBits_zero (k : Nat) : revBits k 0 = 0 := by
  induction k with
  | zero => rfl
  | succ k ih => simp [revBits, ih]

/-- One more bit doubles the reversed number of a short number. -/
theorem revBits_succ_of_lt {k v : Nat} (h : v < 2 ^ k) : revBits (k + 1) v = 2 * revBits k v := by
  rw [revBits_succ_high, Nat.div_eq_of_lt h, Nat.zero_mod, Nat.add_zero]

/-- One more bit does not move a number past a short one. -/
theorem revBits_succ_lt_iff {k c : Nat} (hc : c < 2 ^ k) (v : Nat) :
    revBits (k + 1) v < revBits (k + 1) c ↔ revBits k v < revBits k c := by
  have hbit := Nat.mod_lt (v / 2 ^ k) (show 0 < 2 by decide)
  -- With one more bit the reversals of short numbers are even, and the one of `v` gains a low bit.
  rw [revBits_succ_of_lt hc, revBits_succ_high]
  omega

/-- No number of further bits moves a number past a short one. -/
theorem revBits_lt_iff_of_le {k k' c : Nat} (hc : c < 2 ^ k) (hk : k ≤ k') (v : Nat) :
    revBits k' v < revBits k' c ↔ revBits k v < revBits k c := by
  induction hk with
  | refl => exact Iff.rfl
  | @step m hkm ih =>
    have hcm : c < 2 ^ m := Nat.lt_of_lt_of_le hc (Nat.pow_le_pow_right (by decide) hkm)
    exact (revBits_succ_lt_iff hcm v).trans ih

/-- Further bits only make the reversal of a short number greater. -/
theorem revBits_le_of_le {k k' c : Nat} (hc : c < 2 ^ k) (hk : k ≤ k') :
    revBits k c ≤ revBits k' c := by
  induction hk with
  | refl => exact Nat.le_refl _
  | @step m hkm ih =>
    have hcm : c < 2 ^ m := Nat.lt_of_lt_of_le hc (Nat.pow_le_pow_right (by decide) hkm)
    rw [revBits_succ_of_lt hcm]
    omega

end TinyRedis.Lib

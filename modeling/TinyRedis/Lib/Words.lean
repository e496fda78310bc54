import Mathlib.Data.Fintype.EquivFin
import Mathlib.Data.Nat.Bitwise
import Mathlib.Data.UInt

/-!
# `TinyRedis.Lib.Words`: permutations of 64-bit words

The steps from which pseudo-random generators are built, and why they lose nothing:

* `xorShiftRight_injective`: a right shift xored into the word;
* `mul_right_injective_of_inverse`: a multiplication by a word that has an inverse, that is, by an
  odd one;
* `surjective_of_injective`: a map of words that loses nothing reaches every word;
* `exists_add_mul_eq`: repeated addition of an odd word runs through every word, within one period.

A generator that counts in steps of an odd word and scrambles the counter with such maps therefore
comes to every output.
-/

set_option autoImplicit false

namespace TinyRedis.Lib

/-- A word that equals its own right shift is zero. -/
theorem eq_zero_of_eq_shiftRight {n k : Nat} (hk : 0 < k) (h : n = n >>> k) : n = 0 := by
  by_contra hn
  have hlt : n >>> k < n := by
    rw [Nat.shiftRight_eq_div_pow]
    exact Nat.div_lt_self (Nat.pos_of_ne_zero hn) (Nat.one_lt_two_pow (Nat.ne_of_gt hk))
  omega

/-- Xoring a right shift into a word loses nothing. -/
theorem xorShiftRight_injective {k : UInt64} (hk : 0 < k.toNat % 64) :
    Function.Injective fun z : UInt64 => z ^^^ (z >>> k) := by
  intro x y hxy
  have hnat := congrArg UInt64.toNat hxy
  simp only [UInt64.toNat_xor, UInt64.toNat_shiftRight] at hnat
  -- The difference of the two words equals its own shift.
  have hdiff : x.toNat ^^^ y.toNat = (x.toNat ^^^ y.toNat) >>> (k.toNat % 64) := by
    rw [Nat.shiftRight_xor_distrib]
    calc x.toNat ^^^ y.toNat
        = (x.toNat ^^^ x.toNat >>> (k.toNat % 64)) ^^^
            (x.toNat >>> (k.toNat % 64) ^^^ y.toNat) := by
          rw [← Nat.xor_assoc, Nat.xor_assoc x.toNat, Nat.xor_self, Nat.xor_zero]
      _ = (y.toNat ^^^ y.toNat >>> (k.toNat % 64)) ^^^
            (x.toNat >>> (k.toNat % 64) ^^^ y.toNat) := by
          rw [hnat]
      _ = x.toNat >>> (k.toNat % 64) ^^^ y.toNat >>> (k.toNat % 64) := by
          rw [Nat.xor_comm (y.toNat) (y.toNat >>> _), Nat.xor_comm (x.toNat >>> _) y.toNat,
            Nat.xor_assoc, ← Nat.xor_assoc y.toNat y.toNat, Nat.xor_self, Nat.zero_xor,
            Nat.xor_comm]
  have hzero := eq_zero_of_eq_shiftRight hk hdiff
  exact UInt64.toNat_inj.mp (Nat.eq_of_xor_eq_zero hzero)

/-- Multiplication by a word that has an inverse loses nothing. -/
theorem mul_right_injective_of_inverse {a b : UInt64} (h : a * b = 1) :
    Function.Injective fun z : UInt64 => z * a := by
  intro x y hxy
  have hb := congrArg (· * b) hxy
  simpa only [UInt64.mul_assoc, h, UInt64.mul_one] using hb

/-- A map of words that loses nothing reaches every word. -/
theorem surjective_of_injective {f : UInt64 → UInt64} (h : Function.Injective f) :
    Function.Surjective f := by
  have : Finite UInt64 := Finite.of_injective UInt64.toFin fun x y hxy => UInt64.toFin_inj.mp hxy
  exact Finite.surjective_of_injective h

/-- Adding an invertible word again and again reaches every word, within one period. -/
theorem exists_add_mul_eq {g b : UInt64} (h : b * g = 1) (s x : UInt64) :
    ∃ n < 2 ^ 64, s + UInt64.ofNat n * g = x := by
  refine ⟨((x - s) * b).toNat, UInt64.toNat_lt _, ?_⟩
  rw [UInt64.ofNat_toNat, UInt64.mul_assoc, h, UInt64.mul_one, UInt64.add_comm,
    UInt64.sub_add_cancel]

end TinyRedis.Lib

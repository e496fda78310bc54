import Mathlib.Data.Nat.Digits.Lemmas

/-!
# `TinyRedis.Lib.Decimal`: canonical decimals in ASCII

`decimal n` spells `n` with no sign and no leading zero, and `value` reads digits from the left.

* `value_decimal`: what is spelled reads back.
* `decimal_value`: digits without a leading zero are the spelling of their value. So the two are
  inverse on canonical spellings.
* `decimal_injective` and `length_decimal_le`: two numbers have two spellings, and a number below
  `10 ^ k` has one of at most `k` digits.
* `ofDecimal` reads canonical spellings only.

The digits of Mathlib (`Nat.digits`) come with the lowest first. `value_eq_ofDigits` is the bridge.
-/

set_option autoImplicit false

namespace TinyRedis.Lib

/-- The byte of a digit. -/
def digitByte (d : Nat) : UInt8 := UInt8.ofNat (48 + d)

/-- The digit of a byte. -/
def digitVal (c : UInt8) : Nat := (c - 48).toNat

/-- The byte is one of `0` to `9`. -/
def IsDigit (c : UInt8) : Prop := 48 ≤ c ∧ c ≤ 57

/-- A comparison of bytes decides it. -/
instance (c : UInt8) : Decidable (IsDigit c) := inferInstanceAs (Decidable (_ ∧ _))

/-- The canonical decimal. -/
def decimal (n : Nat) : List UInt8 :=
  if n = 0 then [48] else (Nat.digits 10 n).reverse.map digitByte

/-- The number that digits continue `v` to. -/
def value (s : List UInt8) (v : Nat) : Nat := s.foldl (fun v c => v * 10 + digitVal c) v

/-- Reading goes from the left. -/
@[simp] theorem value_cons (c : UInt8) (s : List UInt8) (v : Nat) :
    value (c :: s) v = value s (v * 10 + digitVal c) := rfl

/-! ### Digits -/

/-- The same on the numbers of the bytes. -/
theorem isDigit_iff {c : UInt8} : IsDigit c ↔ 48 ≤ c.toNat ∧ c.toNat ≤ 57 := Iff.rfl

/-- The difference from `0` does not wrap. -/
theorem digitVal_eq {c : UInt8} (h : IsDigit c) : digitVal c = c.toNat - 48 := by
  rw [digitVal, UInt8.toNat_sub_of_le _ _ h.1]
  rfl

/-- A digit is less than the base. -/
theorem digitVal_lt {c : UInt8} (h : IsDigit c) : digitVal c < 10 := by
  rw [digitVal_eq h]
  rw [isDigit_iff] at h
  omega

/-- The bytes of the digits stand in a row. -/
theorem toNat_digitByte {d : Nat} (h : d < 10) : (digitByte d).toNat = 48 + d :=
  UInt8.toNat_ofNat_of_lt' (show 48 + d < 256 by omega)

/-- What spells a digit is a digit. -/
theorem isDigit_digitByte {d : Nat} (h : d < 10) : IsDigit (digitByte d) := by
  rw [isDigit_iff, toNat_digitByte h]
  omega

/-- A digit reads back. -/
theorem digitVal_digitByte {d : Nat} (h : d < 10) : digitVal (digitByte d) = d := by
  rw [digitVal_eq (isDigit_digitByte h), toNat_digitByte h]
  omega

/-- A digit is spelled as it was read. -/
theorem digitByte_digitVal {c : UInt8} (h : IsDigit c) : digitByte (digitVal c) = c := by
  apply UInt8.toNat_inj.mp
  rw [toNat_digitByte (digitVal_lt h), digitVal_eq h]
  rw [isDigit_iff] at h
  omega

/-! ### Values -/

/-- Digits only add to the value before them. -/
theorem le_value (s : List UInt8) : ∀ v, v ≤ value s v := by
  induction s with
  | nil =>
    intro v
    exact Nat.le_refl v
  | cons c s ih =>
    intro v
    have hrest := ih (v * 10 + digitVal c)
    rw [value_cons]
    omega

/-- Digits read from the left are digits of `Nat.ofDigits` read from the right. -/
theorem value_eq_ofDigits (s : List UInt8) :
    value s 0 = Nat.ofDigits 10 (s.map digitVal).reverse := by
  rw [Nat.ofDigits_eq_foldr, List.foldr_reverse, List.foldl_map, value]
  -- Both are folds, and their steps are the same up to commutativity.
  congr 1
  funext v c
  simp only [Nat.cast_id]
  omega

/-! ### Canonical decimals -/

/-- A decimal has digits only. -/
theorem isDigit_of_mem_decimal {n : Nat} {c : UInt8} (h : c ∈ decimal n) : IsDigit c := by
  unfold decimal at h
  split at h
  · rw [List.mem_singleton] at h
    rw [h]
    decide
  · obtain ⟨d, hd, rfl⟩ := List.mem_map.mp h
    exact isDigit_digitByte (Nat.digits_lt_base (by decide) (List.mem_reverse.mp hd))

/-- Zero has a digit too. -/
theorem decimal_ne_nil (n : Nat) : decimal n ≠ [] := by
  unfold decimal
  split
  · simp
  · next hn => simpa using Nat.digits_ne_nil_iff_ne_zero.mpr hn

/-- A positive decimal has no leading zero. -/
theorem head?_decimal {n : Nat} (hn : n ≠ 0) : (decimal n).head? ≠ some 48 := by
  have hne : Nat.digits 10 n ≠ [] := Nat.digits_ne_nil_iff_ne_zero.mpr hn
  rw [decimal, if_neg hn, List.head?_map, List.head?_reverse, List.getLast?_eq_some_getLast hne]
  -- The first byte spells the last of the digits, which is not zero.
  intro h
  have hlast := Nat.getLast_digit_ne_zero 10 hn
  have hlt : (Nat.digits 10 n).getLast hne < 10 :=
    Nat.digits_lt_base (by decide) (List.getLast_mem hne)
  have hbyte := congrArg UInt8.toNat (Option.some.inj h)
  rw [toNat_digitByte hlt] at hbyte
  simp at hbyte
  omega

/-- A decimal reads back. -/
theorem value_decimal (n : Nat) : value (decimal n) 0 = n := by
  by_cases hn : n = 0
  · subst hn
    decide
  have hmap : (Nat.digits 10 n).map (digitVal ∘ digitByte) = Nat.digits 10 n := by
    conv_rhs => rw [← List.map_id (Nat.digits 10 n)]
    exact List.map_congr_left fun d hd => digitVal_digitByte (Nat.digits_lt_base (by decide) hd)
  rw [value_eq_ofDigits, decimal, if_neg hn, List.map_map, List.map_reverse, List.reverse_reverse,
    hmap, Nat.ofDigits_digits]

/-- Digits without a leading zero are the decimal of their value. -/
theorem decimal_value {s : List UInt8} (hs : s ≠ []) (hdigits : ∀ c ∈ s, IsDigit c)
    (hhead : s.head? ≠ some 48) : decimal (value s 0) = s := by
  have hlt : ∀ d ∈ (s.map digitVal).reverse, d < 10 := by
    intro d hd
    obtain ⟨c, hc, rfl⟩ := List.mem_map.mp (List.mem_reverse.mp hd)
    exact digitVal_lt (hdigits c hc)
  have hdig : Nat.digits 10 (value s 0) = (s.map digitVal).reverse := by
    rw [value_eq_ofDigits]
    refine Nat.digits_ofDigits 10 (by decide) _ hlt fun hne => ?_
    cases s with
    | nil => exact absurd rfl hs
    | cons c s =>
      -- The last of the reversed digits is the first one.
      have hc := hdigits c (by simp)
      rw [List.getLast_reverse, List.head_map, List.head_cons]
      intro hz
      apply hhead
      rw [List.head?_cons, ← digitByte_digitVal hc, hz]
      rfl
  have hne : value s 0 ≠ 0 := by
    rw [← Nat.digits_ne_nil_iff_ne_zero (b := 10), hdig]
    simpa using hs
  rw [decimal, if_neg hne, hdig, List.reverse_reverse, List.map_map]
  conv_rhs => rw [← List.map_id s]
  exact List.map_congr_left fun c hc => digitByte_digitVal (hdigits c hc)

/-- Numbers with the same spelling are the same. -/
theorem decimal_injective : Function.Injective decimal := by
  intro m n h
  rw [← value_decimal m, h, value_decimal]

/-- A number below `10 ^ k` has at most `k` digits. -/
theorem length_decimal_le {n k : Nat} (hk : 0 < k) (hn : n < 10 ^ k) : (decimal n).length ≤ k := by
  unfold decimal
  split
  · exact hk
  · simpa using (Nat.digits_length_le_iff (by decide) n).mpr hn

/-- The number that a canonical decimal spells. -/
def ofDecimal (s : List UInt8) : Option Nat :=
  if decimal (value s 0) = s then some (value s 0) else none

/-- Canonical spellings are read. -/
@[simp] theorem ofDecimal_decimal (n : Nat) : ofDecimal (decimal n) = some n := by
  rw [ofDecimal, value_decimal, if_pos rfl]

end TinyRedis.Lib

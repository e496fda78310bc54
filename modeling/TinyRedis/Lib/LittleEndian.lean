import Mathlib.Data.Nat.Digits.Lemmas
import Mathlib.Data.Set.Function

/-!
# `TinyRedis.Lib.LittleEndian`: blocks of bytes as 64-bit words

A byte string cut into blocks of one length, and a block of at most eight bytes read as a
little-endian word. Neither loses anything:

* `flatten_blocks`: blocks that fill the string join to it again.
* `leWord_injOn`: two blocks of eight bytes with one word are one block.
* `map_injOn` carries that over to lists of blocks.

`blocks_append` and `leWord_snoc` are what loops over such strings need: a string is cut
independently on both sides of a block boundary, and one more byte of a word goes above the others.
-/

set_option autoImplicit false

namespace TinyRedis.Lib

section Blocks

variable {α : Type*} {n : Nat}

/-- The whole blocks of `n` elements, from the front. -/
def blocks (n : Nat) (l : List α) : List (List α) :=
  (List.range (l.length / n)).map fun i => (l.drop (n * i)).take n

/-- Blocks are cut independently on both sides of a block boundary. -/
theorem blocks_append (hn : 0 < n) {a : List α} (h : n ∣ a.length) (b : List α) :
    blocks n (a ++ b) = blocks n a ++ blocks n b := by
  obtain ⟨q, hq⟩ := h
  have hlen : (a ++ b).length / n = q + b.length / n := by
    rw [List.length_append, hq, Nat.mul_add_div hn]
  have hfull : a.length / n = q := by
    rw [hq, Nat.mul_div_cancel_left q hn]
  rw [blocks, blocks, blocks, hlen, hfull, List.range_add, List.map_append, List.map_map]
  congr 1
  · refine List.map_congr_left fun i hi => ?_
    -- A block of `a` ends within `a`.
    have hend : n * i + n ≤ a.length := by
      rw [hq, ← Nat.mul_succ]
      exact Nat.mul_le_mul_left n (List.mem_range.mp hi)
    rw [List.drop_append_of_le_length (by omega),
      List.take_append_of_le_length (by rw [List.length_drop]; omega)]
  · refine List.map_congr_left fun i _ => ?_
    have hstart : n * (q + i) = a.length + n * i := by
      rw [hq, Nat.mul_add]
    rw [Function.comp_apply, hstart, List.drop_length_add_append]

/-- A list of the length of a block is one block. -/
theorem blocks_of_length_eq (hn : 0 < n) {a : List α} (h : a.length = n) : blocks n a = [a] := by
  rw [blocks, h, Nat.div_self hn]
  simp [← h]

/-- Only whole blocks are cut. -/
theorem length_of_mem_blocks {l b : List α} (h : b ∈ blocks n l) : b.length = n := by
  obtain ⟨i, hi, rfl⟩ := List.mem_map.mp h
  have hend : n * (i + 1) ≤ l.length :=
    (Nat.mul_le_mul_left n (List.mem_range.mp hi)).trans (Nat.mul_div_le l.length n)
  rw [Nat.mul_succ] at hend
  rw [List.length_take, List.length_drop]
  omega

/-- Blocks that fill the list join to it. -/
theorem flatten_blocks (hn : 0 < n) {l : List α} (h : n ∣ l.length) : (blocks n l).flatten = l := by
  obtain ⟨q, hq⟩ := h
  -- The induction is on the number of blocks: one is cut off at the front.
  induction q generalizing l with
  | zero =>
    obtain rfl := List.eq_nil_of_length_eq_zero hq
    simp [blocks]
  | succ q ih =>
    have hfirst : (l.take n).length = n := by
      rw [List.length_take, hq, Nat.mul_succ]
      omega
    have hrest : (l.drop n).length = n * q := by
      rw [List.length_drop, hq, Nat.mul_succ]
      omega
    calc (blocks n l).flatten
        = (blocks n (l.take n ++ l.drop n)).flatten := by rw [List.take_append_drop]
      _ = l.take n ++ (blocks n (l.drop n)).flatten := by
          rw [blocks_append hn (Dvd.intro 1 (by rw [hfirst, Nat.mul_one])),
            blocks_of_length_eq hn hfirst, List.flatten_append]
          simp
      _ = l := by rw [ih hrest, List.take_append_drop]

/-- A map that loses nothing on `s` loses nothing on the lists over `s`. -/
theorem map_injOn {β : Type*} {f : α → β} {s : Set α} (hf : s.InjOn f) :
    Set.InjOn (List.map f) { l | ∀ a ∈ l, a ∈ s } := by
  intro l hl l' hl' h
  induction l generalizing l' with
  | nil => exact (List.map_eq_nil_iff.mp h.symm).symm
  | cons a l ih =>
    obtain ⟨a', t, rfl, ha, ht⟩ := List.map_eq_cons_iff.mp h.symm
    rw [hf (hl a List.mem_cons_self) (hl' a' List.mem_cons_self) ha.symm,
      ih (fun b hb => hl b (List.mem_cons_of_mem a hb))
        (fun b hb => hl' b (List.mem_cons_of_mem a' hb)) ht.symm]

end Blocks

/-! ### Words -/

/-- The number that the bytes are the little-endian digits of. -/
def leNat (bs : List UInt8) : Nat := Nat.ofDigits 256 (bs.map UInt8.toNat)

/-- The word that a block of at most eight bytes holds. -/
def leWord (bs : List UInt8) : UInt64 := UInt64.ofNat (leNat bs)

/-- The number of some bytes has no more digits than there are bytes. -/
theorem leNat_lt (bs : List UInt8) : leNat bs < 256 ^ bs.length := by
  have h := @Nat.ofDigits_lt_base_pow_length 256 (bs.map UInt8.toNat) (by decide) (by
    intro x hx
    obtain ⟨b, -, rfl⟩ := List.mem_map.mp hx
    exact b.toNat_lt)
  rwa [List.length_map] at h

/-- One more byte is the highest digit. -/
theorem leNat_snoc (bs : List UInt8) (b : UInt8) :
    leNat (bs ++ [b]) = leNat bs + 256 ^ bs.length * b.toNat := by
  rw [leNat, List.map_append, Nat.ofDigits_append, List.length_map, List.map_singleton,
    Nat.ofDigits_singleton, leNat]

/-- Up to eight bytes fit in a word. -/
theorem toNat_leWord {bs : List UInt8} (h : bs.length ≤ 8) : (leWord bs).toNat = leNat bs := by
  have hlt : leNat bs < 2 ^ 64 :=
    calc leNat bs < 256 ^ bs.length := leNat_lt bs
      _ ≤ 256 ^ 8 := Nat.pow_le_pow_right (by decide) h
      _ = 2 ^ 64 := by decide
  exact UInt64.toNat_ofNat_of_lt' hlt

/-- One more byte goes above the others. -/
theorem leWord_snoc {bs : List UInt8} (h : bs.length < 8) (b : UInt8) :
    leWord (bs ++ [b]) = leWord bs ||| (b.toUInt64 <<< UInt64.ofNat (8 * bs.length)) := by
  apply UInt64.toNat_inj.mp
  have hbyte : b.toNat < 2 ^ 8 := b.toNat_lt
  have hpow : 256 ^ bs.length = 2 ^ (8 * bs.length) := by
    rw [Nat.pow_mul]
  have hshift : b.toNat <<< (8 * bs.length) < 2 ^ 64 := by
    rw [Nat.shiftLeft_eq]
    calc b.toNat * 2 ^ (8 * bs.length) < 2 ^ 8 * 2 ^ (8 * bs.length) :=
          Nat.mul_lt_mul_of_pos_right hbyte (Nat.two_pow_pos _)
      _ = 2 ^ (8 + 8 * bs.length) := (Nat.pow_add ..).symm
      _ ≤ 2 ^ 64 := Nat.pow_le_pow_right (by decide) (by omega)
  have hlow : leNat bs < 2 ^ (8 * bs.length) := hpow ▸ leNat_lt bs
  have hcount : (UInt64.ofNat (8 * bs.length)).toNat % 64 = 8 * bs.length := by
    rw [UInt64.toNat_ofNat']
    omega
  -- The new byte is shifted above what the others take up, so the bitwise or is a sum.
  rw [toNat_leWord (by simpa using h), leNat_snoc, UInt64.toNat_or, toNat_leWord h.le,
    UInt64.toNat_shiftLeft, hcount, UInt8.toNat_toUInt64, Nat.mod_eq_of_lt hshift, hpow,
    Nat.or_comm, ← Nat.shiftLeft_add_eq_or_of_lt hlow, Nat.shiftLeft_eq]
  ring

/-- Eight bytes can be read off their word. -/
theorem leWord_injOn : Set.InjOn leWord { bs | bs.length = 8 } := by
  intro a (ha : a.length = 8) b (hb : b.length = 8) h
  have hnat : leNat a = leNat b := by
    rw [← toNat_leWord ha.le, ← toNat_leWord hb.le, h]
  have hdigits : a.map UInt8.toNat = b.map UInt8.toNat :=
    Nat.ofDigits_inj_of_len_eq (by decide) (by simp [ha, hb])
      (by simpa using fun x _ => UInt8.toNat_lt x) (by simpa using fun x _ => UInt8.toNat_lt x) hnat
  exact (List.map_injective_iff.mpr fun x y => UInt8.toNat_inj.mp) hdigits

end TinyRedis.Lib

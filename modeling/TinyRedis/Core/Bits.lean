import Mathlib.Algebra.Group.Nat.Defs
import Mathlib.Data.Nat.Log

/-!
# `TinyRedis.Core.Bits`: cursor and generator arithmetic

The model of `src/core/bits.cpp`:

* `reverseBits` and `nextCursor` are the reverse-binary cursor of the scans. The cursor counts in
  the bits of the bucket index read backwards, so that a scan that was begun before the table
  doubled goes on in the larger table without missing a bucket.
* `nextPow2` sizes the bucket array. It is `std::bit_ceil`, which is undefined where the result does
  not fit in `std::size_t`.
* `splitmix64` is the generator of the samples.

`size_t` values are `Nat`: every value here is below `2 ^ 64` when the mask is, so nothing wraps.
The one exception is the increment in `nextCursor` at `mask = 2 ^ 64 - 1`, where the source wraps to
`0` and answers `reverseBits 0 = 0`. The model answers `0` there through the carry test.

`Bytes` and `ascii` are for the whole development: what a `std::string_view` holds, and the literals
of the source.
-/

set_option autoImplicit false

namespace TinyRedis

/-- Byte strings: what `std::string_view` and `std::vector<char>` hold. -/
abbrev Bytes := List UInt8

/-- The bytes of an ASCII literal of the source. -/
def ascii (s : String) : Bytes := s.toList.map fun c => UInt8.ofNat c.toNat

/-- The loop of `reverseBits`. A `size_t` mask has 64 bits, so 64 rounds always reach
`m = 0`. -/
def reverseLoop : (rounds : Nat) → (m v out : Nat) → Nat
  | 0, _, _, out => out
  | rounds + 1, m, v, out =>
      if m = 0 then out
      -- The bit that leaves `v` at the low end enters `out` there, so the order turns round.
      else reverseLoop rounds (m >>> 1) (v >>> 1) ((out <<< 1) ||| (v &&& 1))

/-- Reverses the low bits of `v` that `mask` covers. -/
def reverseBits (v mask : Nat) : Nat := reverseLoop 64 mask v 0

/-- `std::bit_ceil`: the least power of two at or above `n`. A result that `size_t`
cannot hold is undefined behaviour. -/
def bitCeil (n : Nat) : Option Nat :=
  if n ≤ 1 then some 1
  else if n ≤ 2 ^ 63 then some (2 ^ (Nat.log2 (n - 1) + 1))
  else none

/-- Smallest power of two `≥ n`, and `1` for `n = 0`. -/
def nextPow2 (n : Nat) : Option Nat :=
  if n = 0 then some 1 else bitCeil n

/-- Reverse-binary increment over a power-of-two table, `mask = buckets - 1`. Returns `0`
when the cycle ends. -/
def nextCursor (cursor mask : Nat) : Nat :=
  let r := reverseBits cursor mask + 1
  -- A carry out of the mask is the end of the cycle.
  if r > mask then 0 else reverseBits r mask

/-- Advances `state` and returns the next output with the new state. -/
def splitmix64 (state : UInt64) : UInt64 × UInt64 :=
  let state := state + 0x9e3779b97f4a7c15
  let z := state
  let z := (z ^^^ (z >>> 30)) * 0xbf58476d1ce4e5b9
  let z := (z ^^^ (z >>> 27)) * 0x94d049bb133111eb
  (z ^^^ (z >>> 31), state)

end TinyRedis

import TinyRedis.Core.Bits

/-!
# `TinyRedis.Core.Hash`: SipHash-1-3

The model of `src/core/hash.cpp`, which hashes the keys of the table. A message is a byte list, and
the source's pointer `p` is the suffix still to read.

* `SipState.round` is one SipRound, written operation by operation in the order of the source.
* `compressWords` is the loop over the full words of the message, and `tailBlock` the last word,
  with the fall-through `switch` over the bytes that are left.
* `sipHash13` is one compression round for each word and three at the end.
* `hashBytes` derives the two halves of the key from the seed of the table.

`TinyRedis.Proofs.Hash` compares this with the algorithm as it is published
(`TinyRedis.Lib.SipHash`).
-/

set_option autoImplicit false

namespace TinyRedis

/-- `std::rotl` on a 64-bit word. -/
def rotl (x : UInt64) (r : UInt64) : UInt64 := (x <<< r) ||| (x >>> (64 - r))

/-- The byte `p[i]`, as `static_cast<unsigned char>` reads it. -/
def byteAt (p : Bytes) (i : Nat) : UInt64 := (p.getD i 0).toUInt64

/-- Reads eight bytes as one little-endian word. -/
def load64le (p : Bytes) : UInt64 :=
  byteAt p 0 ||| (byteAt p 1 <<< 8) ||| (byteAt p 2 <<< 16) ||| (byteAt p 3 <<< 24) |||
    (byteAt p 4 <<< 32) ||| (byteAt p 5 <<< 40) ||| (byteAt p 6 <<< 48) |||
    (byteAt p 7 <<< 56)

/-- The four SipHash state words. -/
structure SipState where
  v0 : UInt64
  v1 : UInt64
  v2 : UInt64
  v3 : UInt64
deriving DecidableEq, Repr

namespace SipState

/-- One SipRound, in the order of the source. -/
def round (s : SipState) : SipState :=
  let v0 := s.v0 + s.v1
  let v1 := rotl s.v1 13
  let v1 := v1 ^^^ v0
  let v0 := rotl v0 32
  let v2 := s.v2 + s.v3
  let v3 := rotl s.v3 16
  let v3 := v3 ^^^ v2
  let v0 := v0 + v3
  let v3 := rotl v3 21
  let v3 := v3 ^^^ v0
  let v2 := v2 + v1
  let v1 := rotl v1 17
  let v1 := v1 ^^^ v2
  let v2 := rotl v2 32
  { v0, v1, v2, v3 }

/-- Absorbs one word, with `c = 1` rounds. -/
def compress (s : SipState) (m : UInt64) : SipState :=
  let s := { s with v3 := s.v3 ^^^ m }
  let s := s.round
  { s with v0 := s.v0 ^^^ m }

end SipState

/-- The loop over the whole words: `words` of them are left at `p`. Returns the state and
the tail. -/
def compressWords : (words : Nat) → Bytes → SipState → SipState × Bytes
  | 0, p, s => (s, p)
  | words + 1, p, s => compressWords words (p.drop 8) (s.compress (load64le p))

/-- The final block: the 0 to 7 tail bytes at `p`, and `len mod 256` in the top byte. The
fall-through `switch` enters at `len & 7` and runs down to case 1. -/
def tailBlock (len : Nat) (p : Bytes) : UInt64 :=
  let r := len &&& 7
  let b := UInt64.ofNat len <<< 56
  let b := if 7 ≤ r then b ||| (byteAt p 6 <<< 48) else b
  let b := if 6 ≤ r then b ||| (byteAt p 5 <<< 40) else b
  let b := if 5 ≤ r then b ||| (byteAt p 4 <<< 32) else b
  let b := if 4 ≤ r then b ||| (byteAt p 3 <<< 24) else b
  let b := if 3 ≤ r then b ||| (byteAt p 2 <<< 16) else b
  let b := if 2 ≤ r then b ||| (byteAt p 1 <<< 8) else b
  if 1 ≤ r then b ||| byteAt p 0 else b

/-- SipHash-1-3 of `msg` under the 128-bit key `(k0, k1)`. -/
def sipHash13 (msg : Bytes) (k0 k1 : UInt64) : UInt64 :=
  let s : SipState :=
    { v0 := k0 ^^^ 0x736f6d6570736575
      v1 := k1 ^^^ 0x646f72616e646f6d
      v2 := k0 ^^^ 0x6c7967656e657261
      v3 := k1 ^^^ 0x7465646279746573 }
  let (s, p) := compressWords (msg.length / 8) msg s
  let s := s.compress (tailBlock msg.length p)
  let s := { s with v2 := s.v2 ^^^ 0xff }
  let s := s.round.round.round
  s.v0 ^^^ s.v1 ^^^ s.v2 ^^^ s.v3

/-- Hashes key bytes: the seed is stretched to a 128-bit SipHash key. -/
def hashBytes (key : Bytes) (seed : UInt64) : UInt64 :=
  let (k0, state) := splitmix64 seed
  let (k1, _) := splitmix64 state
  sipHash13 key k0 k1

end TinyRedis

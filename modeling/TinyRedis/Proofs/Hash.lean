import Mathlib.Data.List.GetD
import TinyRedis.Core.Hash
import TinyRedis.Lib.SipHash

/-!
# `TinyRedis.Proofs.Hash`: the key hash is SipHash-1-3

`sipHash13` reads the message where it lies: whole words in a loop, then a `switch` that falls
through the tail bytes into a word that already holds the length. The reference in
`Lib/SipHash.lean` knows no tail. It pads the message and folds over words.

The two meet block by block.

* `SipState.ref_round`: the four statements of a round are the round of the reference.
* `load64le_eq`: a loaded word is the little-endian word of its eight bytes.
* `tailBlock_eq`: the final block is the word of the tail, the zeros and the length byte, because a
  tail byte that is not there reads as the zero that pads it.
* `compressWords_eq`: the loop compresses the words of the message in order.
* `sipHash13_eq`: the hash of the source is the one of the reference, for every message and key.

`byteAt` reads zero behind the end. The source never reads there: the `switch` starts at the number
of bytes that are left, and `tailBlock_unguarded` shows that reading all seven and finding zeros
comes to the same.
-/

set_option autoImplicit false

namespace TinyRedis

open Lib

/-! ### The round -/

/-- The rotation of the source shifts both ways, which is a rotation for counts that are neither `0`
nor `64`. -/
theorem rotl_eq (x : UInt64) {r : Nat} (h₀ : 0 < r) (h : r < 64) :
    rotl x (UInt64.ofNat r) = SipHash.rotate x r := by
  have hleft : (UInt64.ofNat r).toNat % 64 = r := by
    rw [UInt64.toNat_ofNat']
    omega
  have hright : (64 - UInt64.ofNat r).toNat % 64 = 64 - r := by
    have h64 : (64 : UInt64).toNat = 64 := rfl
    rw [UInt64.toNat_sub, UInt64.toNat_ofNat']
    omega
  have hrotate : (SipHash.rotate x r).toNat
      = x.toNat <<< r % 2 ^ 64 ||| x.toNat >>> (64 - r) := by
    show (x.toBitVec.rotateLeft r).toNat = _
    rw [BitVec.rotateLeft_def, Nat.mod_eq_of_lt h, BitVec.toNat_or, BitVec.toNat_shiftLeft,
      BitVec.toNat_ushiftRight, UInt64.toNat_toBitVec]
  apply UInt64.toNat_inj.mp
  rw [rotl, UInt64.toNat_or, UInt64.toNat_shiftLeft, UInt64.toNat_shiftRight, hleft, hright,
    hrotate]

namespace SipState

/-- The state, as the reference has it. -/
def ref (s : SipState) : SipHash.State where
  v0 := s.v0
  v1 := s.v1
  v2 := s.v2
  v3 := s.v3

/-- The statements of `round` are those of the two half rounds, in another order. -/
theorem ref_round (s : SipState) : s.round.ref = SipHash.sipRound s.ref := by
  simp (disch := decide) only [SipHash.sipRound, SipHash.halfRound, ← rotl_eq]
  rfl

/-- A word of the message is xored in before the round and after it. -/
theorem ref_compress (s : SipState) (m : UInt64) :
    (s.compress m).ref = SipHash.compress 1 s.ref m := by
  have hround : SipHash.sipRound { s.ref with v3 := s.ref.v3 ^^^ m }
      = (round { s with v3 := s.v3 ^^^ m }).ref :=
    (ref_round { s with v3 := s.v3 ^^^ m }).symm
  rw [SipHash.compress, Function.iterate_one, hround]
  rfl

/-- The three last rounds, and the four words folded into one. -/
theorem finalize_ref (s : SipState) :
    let t := (round { s with v2 := s.v2 ^^^ 0xff }).round.round
    SipHash.finalize 3 s.ref = t.v0 ^^^ t.v1 ^^^ t.v2 ^^^ t.v3 := by
  intro t
  have hrounds : SipHash.sipRound^[3] { s.ref with v2 := s.ref.v2 ^^^ 0xff } = t.ref := by
    rw [ref_round, ref_round, ref_round]
    rfl
  rw [SipHash.finalize, hrounds]
  rfl

end SipState

/-! ### Words and the final block -/

/-- A byte of the front. -/
theorem byteAt_append_left {a : Bytes} {i : Nat} (h : i < a.length) (b : Bytes) :
    byteAt (a ++ b) i = byteAt a i := by
  rw [byteAt, List.getD_append a b 0 i h, byteAt]

/-- A byte of the back. -/
theorem byteAt_append_right {a : Bytes} {i : Nat} (h : a.length ≤ i) (b : Bytes) :
    byteAt (a ++ b) i = byteAt b (i - a.length) := by
  rw [byteAt, List.getD_append_right a b 0 i h, byteAt]

/-- There is nothing behind the end. -/
theorem byteAt_of_length_le {p : Bytes} {i : Nat} (h : p.length ≤ i) : byteAt p i = 0 := by
  rw [byteAt, List.getD_eq_default p 0 h]
  rfl

/-- One more byte goes in above those that are there. -/
theorem leWord_take_succ {p : Bytes} {i : Nat} (h : i < p.length) (h8 : i < 8) :
    leWord (p.take (i + 1)) = leWord (p.take i) ||| (byteAt p i <<< UInt64.ofNat (8 * i)) := by
  have hlen : (p.take i).length = i := List.length_take_of_le h.le
  rw [List.take_succ_eq_append_getElem h, leWord_snoc (by omega), hlen, byteAt,
    List.getD_eq_getElem p 0 h]

/-- A loaded word is the little-endian word of its bytes. -/
theorem load64le_eq {block : Bytes} (h : block.length = 8) (rest : Bytes) :
    load64le (block ++ rest) = leWord block := by
  have hbyte : ∀ i < 8, byteAt (block ++ rest) i = byteAt block i := fun i hi =>
    byteAt_append_left (by omega) rest
  have hstep : ∀ i < 8, leWord (block.take (i + 1))
      = leWord (block.take i) ||| (byteAt block i <<< UInt64.ofNat (8 * i)) := fun i hi =>
    leWord_take_succ (by omega) hi
  have hzero : leWord (block.take 0) ||| (byteAt block 0 <<< UInt64.ofNat (8 * 0))
      = byteAt block 0 := by
    rw [List.take_zero]
    show (0 : UInt64) ||| (byteAt block 0 <<< 0) = byteAt block 0
    rw [UInt64.zero_or, UInt64.shiftLeft_zero]
  -- The eight bytes are taken in one at a time, from the lowest.
  symm
  calc leWord block
      = leWord (block.take 8) := by rw [List.take_of_length_le h.le]
    _ = load64le block := by
      rw [hstep 7 (by decide), hstep 6 (by decide), hstep 5 (by decide), hstep 4 (by decide),
        hstep 3 (by decide), hstep 2 (by decide), hstep 1 (by decide), hstep 0 (by decide), hzero]
      rfl
    _ = load64le (block ++ rest) := by
      simp (disch := decide) only [load64le, hbyte]

/-- A case that adds nothing needs no guard. -/
theorem or_of_guard {r i : Nat} {b w : UInt64} (h : r ≤ i → w = 0) :
    (if i + 1 ≤ r then b ||| w else b) = b ||| w := by
  split
  · rfl
  · rw [h (by omega), UInt64.or_zero]

/-- The `switch`, without its entry point: the bytes past the tail read as zero. -/
theorem tailBlock_unguarded {len : Nat} {p : Bytes} (h : p.length = len % 8) :
    tailBlock len p = UInt64.ofNat len <<< 56 ||| (byteAt p 6 <<< 48) ||| (byteAt p 5 <<< 40) |||
      (byteAt p 4 <<< 32) ||| (byteAt p 3 <<< 24) ||| (byteAt p 2 <<< 16) ||| (byteAt p 1 <<< 8) |||
      byteAt p 0 := by
  have hr : len &&& 7 = p.length := by
    rw [h]
    exact Nat.and_two_pow_sub_one_eq_mod len 3
  have habsent : ∀ (i : Nat) (k : UInt64), p.length ≤ i → byteAt p i <<< k = 0 := fun i k hi => by
    rw [byteAt_of_length_le hi, UInt64.zero_shiftLeft]
  simp only [tailBlock, hr]
  rw [or_of_guard (habsent 6 48), or_of_guard (habsent 5 40), or_of_guard (habsent 4 32),
    or_of_guard (habsent 3 24), or_of_guard (habsent 2 16), or_of_guard (habsent 1 8),
    or_of_guard byteAt_of_length_le]

/-- Only the low byte of the length is left in the top byte. -/
theorem length_shiftLeft (len : Nat) :
    UInt64.ofNat len <<< 56 = (UInt8.ofNat len).toUInt64 <<< 56 := by
  apply UInt64.toNat_inj.mp
  have hcount : (56 : UInt64).toNat % 64 = 56 := rfl
  rw [UInt64.toNat_shiftLeft, UInt64.toNat_shiftLeft, hcount, UInt64.toNat_ofNat',
    UInt8.toNat_toUInt64, UInt8.toNat_ofNat', Nat.shiftLeft_eq, Nat.shiftLeft_eq]
  omega

/-- The `switch` runs down the bytes that a load runs up. -/
theorem or_reverse (a b c d e f g h : UInt64) :
    a ||| b ||| c ||| d ||| e ||| f ||| g ||| h = h ||| g ||| f ||| e ||| d ||| c ||| b ||| a := by
  ac_rfl

/-- The bytes of the padded tail, before the length, are those of the tail. -/
theorem byteAt_append_zeros (p : Bytes) (n i : Nat) :
    byteAt (p ++ List.replicate n 0) i = byteAt p i := by
  rcases Nat.lt_or_ge i p.length with hin | hout
  · exact byteAt_append_left hin _
  · rw [byteAt_append_right hout, byteAt_of_length_le hout]
    rcases Nat.lt_or_ge (i - p.length) n with hzero | hend
    · rw [byteAt, List.getD_replicate 0 hzero]
      rfl
    · exact byteAt_of_length_le (by rwa [List.length_replicate])

/-- The final block is the tail, the zeros that pad it, and the length byte. -/
theorem tailBlock_eq {len : Nat} {p : Bytes} (h : p.length = len % 8) :
    tailBlock len p
      = leWord (p ++ List.replicate (7 - len % 8) 0 ++ [UInt8.ofNat len]) := by
  -- Seven bytes of tail and padding, and the length as the eighth.
  have hbody : (p ++ List.replicate (7 - len % 8) (0 : UInt8)).length = 7 := by
    rw [List.length_append, List.length_replicate]
    omega
  have hbyte : ∀ i < 7, byteAt (p ++ List.replicate (7 - len % 8) 0 ++ [UInt8.ofNat len]) i
      = byteAt p i := fun i hi => by
    rw [byteAt_append_left (by omega), byteAt_append_zeros]
  have hlast : byteAt (p ++ List.replicate (7 - len % 8) 0 ++ [UInt8.ofNat len]) 7
      = (UInt8.ofNat len).toUInt64 := by
    rw [byteAt_append_right (by omega), hbody]
    rfl
  have hload := @load64le_eq (p ++ List.replicate (7 - len % 8) 0 ++ [UInt8.ofNat len])
    (by rw [List.length_append, hbody]; rfl) []
  rw [List.append_nil] at hload
  rw [← hload, tailBlock_unguarded h, length_shiftLeft, load64le, hlast, hbyte 0 (by decide),
    hbyte 1 (by decide), hbyte 2 (by decide), hbyte 3 (by decide), hbyte 4 (by decide),
    hbyte 5 (by decide), hbyte 6 (by decide), or_reverse]

/-! ### The whole message -/

/-- The word loop takes in the blocks of `body`, and leaves the tail. -/
theorem compressWords_eq {q : Nat} {body : Bytes} (h : body.length = 8 * q) (tail : Bytes)
    (s : SipState) :
    ∃ s', compressWords q (body ++ tail) s = (s', tail) ∧
      s'.ref = ((blocks 8 body).map leWord).foldl (SipHash.compress 1) s.ref := by
  induction q generalizing body s with
  | zero =>
    obtain rfl := List.eq_nil_of_length_eq_zero h
    exact ⟨s, rfl, rfl⟩
  | succ q ih =>
    -- The first eight bytes are one block, and the rest is the message of the induction.
    have hblock : (body.take 8).length = 8 := List.length_take_of_le (by omega)
    have hload : load64le (body ++ tail) = leWord (body.take 8) := by
      rw [← load64le_eq hblock (body.drop 8 ++ tail), ← List.append_assoc, List.take_append_drop]
    obtain ⟨s', hrun, href⟩ := @ih (body.drop 8) (by rw [List.length_drop]; omega)
      (s.compress (leWord (body.take 8)))
    refine ⟨s', ?_, ?_⟩
    · rw [compressWords, hload, List.drop_append_of_le_length (by omega), hrun]
    · rw [href, SipState.ref_compress]
      conv_rhs => rw [← List.take_append_drop 8 body,
        blocks_append (by decide) (Dvd.intro 1 (by rw [hblock, Nat.mul_one])),
        blocks_of_length_eq (by decide) hblock]
      rfl

/-- Only the tail of a message is padded. -/
theorem words_eq {msg body tail : Bytes} (h : body ++ tail = msg)
    (hbody : body.length = 8 * (msg.length / 8)) :
    SipHash.words msg = (blocks 8 body).map leWord ++ [tailBlock msg.length tail] := by
  have hlen : body.length + tail.length = msg.length := by
    rw [← h, List.length_append]
  have hlast : (tail ++ List.replicate (7 - msg.length % 8) 0
      ++ [UInt8.ofNat msg.length]).length = 8 := by
    rw [List.length_append, List.length_append, List.length_replicate, List.length_singleton]
    omega
  have hpadded : SipHash.padded msg = body
      ++ (tail ++ List.replicate (7 - msg.length % 8) 0 ++ [UInt8.ofNat msg.length]) := by
    rw [← List.append_assoc, ← List.append_assoc, h, SipHash.padded]
  rw [SipHash.words, hpadded, blocks_append (by decide) (Dvd.intro _ hbody.symm),
    blocks_of_length_eq (by decide) hlast, List.map_append, tailBlock_eq (by omega)]
  rfl

/-- The hash of the source is SipHash-1-3. -/
theorem sipHash13_eq (msg : Bytes) (k0 k1 : UInt64) :
    sipHash13 msg k0 k1 = SipHash.hashWords 1 3 k0 k1 (SipHash.words msg) := by
  have hmsg : msg.take (8 * (msg.length / 8)) ++ msg.drop (8 * (msg.length / 8)) = msg :=
    List.take_append_drop ..
  have hbody : (msg.take (8 * (msg.length / 8))).length = 8 * (msg.length / 8) :=
    List.length_take_of_le (by omega)
  obtain ⟨s, hrun, href⟩ := compressWords_eq hbody (msg.drop (8 * (msg.length / 8)))
    { v0 := k0 ^^^ 0x736f6d6570736575
      v1 := k1 ^^^ 0x646f72616e646f6d
      v2 := k0 ^^^ 0x6c7967656e657261
      v3 := k1 ^^^ 0x7465646279746573 }
  rw [hmsg] at hrun
  have hstate : ((SipHash.words msg).foldl (SipHash.compress 1) (SipHash.init k0 k1))
      = (s.compress (tailBlock msg.length (msg.drop (8 * (msg.length / 8))))).ref := by
    rw [words_eq hmsg hbody, List.foldl_append, SipState.ref_compress, href]
    rfl
  rw [SipHash.hashWords, hstate, SipState.finalize_ref, sipHash13, hrun]

-- A vector of the source's tests, through one whole word and a tail.
example : SipHash.hashWords 1 3 0 0 (SipHash.words [0, 1, 2, 3, 4, 5, 6, 7, 8])
    = 0x75927F9D95124362 := by decide

/-- `sipHash13` is SipHash-1-3. It folds one round of compression for each word of the padded
message, from the state of the key, and ends with three rounds. Different messages have
different words, and the seed of the table only chooses the key. -/
theorem sipHash13_reference :
    (∀ msg k0 k1, sipHash13 msg k0 k1 = SipHash.finalize 3
      ((SipHash.words msg).foldl (SipHash.compress 1) (SipHash.init k0 k1))) ∧
    Function.Injective SipHash.words ∧
    ∀ seed, ∃ k0 k1, ∀ key, hashBytes key seed
      = SipHash.hashWords 1 3 k0 k1 (SipHash.words key) :=
  ⟨sipHash13_eq, SipHash.words_injective, fun _ => ⟨_, _, fun key => sipHash13_eq key _ _⟩⟩

end TinyRedis

import TinyRedis.Lib.LittleEndian

/-!
# `TinyRedis.Lib.SipHash`: the SipHash family

SipHash-`c`-`d` as a keyed fold over 64-bit words: `c` rounds for each word of the padded message,
and `d` rounds at the end. The round is the network of two half rounds, and rotation is that of bit
vectors.

* `padded` adds zeros and one byte with the length, and `words` cuts the result into words.
* `hashWords` is the hash of a sequence of words.
* `words_injective`: a message can be read off its words. Two messages with the same hash are
  therefore a collision of the fold over words, and not of the padding.
-/

set_option autoImplicit false

namespace TinyRedis.Lib.SipHash

/-- The four words of state. -/
structure State where
  v0 : UInt64
  v1 : UInt64
  v2 : UInt64
  v3 : UInt64

/-- Rotation to the left, as on bit vectors. -/
def rotate (x : UInt64) (r : Nat) : UInt64 := UInt64.ofBitVec (x.toBitVec.rotateLeft r)

/-- The first half of a round: `v0` with `v1`, and `v2` with `v3`. -/
def halfRound (s t : Nat) (v : State) : State where
  v0 := rotate (v.v0 + v.v1) 32
  v1 := rotate v.v1 s ^^^ (v.v0 + v.v1)
  v2 := v.v2 + v.v3
  v3 := rotate v.v3 t ^^^ (v.v2 + v.v3)

/-- Exchanges `v0` and `v2`, which the second half of a round does. -/
def State.cross (v : State) : State := { v with v0 := v.v2, v2 := v.v0 }

/-- One SipRound: two half rounds, the second of them crossed. -/
def sipRound (v : State) : State := (halfRound 17 21 (halfRound 13 16 v).cross).cross

/-- The state that the key starts from. -/
def init (k0 k1 : UInt64) : State where
  v0 := k0 ^^^ 0x736f6d6570736575
  v1 := k1 ^^^ 0x646f72616e646f6d
  v2 := k0 ^^^ 0x6c7967656e657261
  v3 := k1 ^^^ 0x7465646279746573

/-- Takes one word in, with `c` rounds. -/
def compress (c : Nat) (v : State) (m : UInt64) : State :=
  let v := sipRound^[c] { v with v3 := v.v3 ^^^ m }
  { v with v0 := v.v0 ^^^ m }

/-- The hash of a state, after `d` more rounds. -/
def finalize (d : Nat) (v : State) : UInt64 :=
  let v := sipRound^[d] { v with v2 := v.v2 ^^^ 0xff }
  v.v0 ^^^ v.v1 ^^^ v.v2 ^^^ v.v3

/-- The message, zeros up to a length of 7 modulo 8, and the length modulo 256. -/
def padded (msg : List UInt8) : List UInt8 :=
  msg ++ List.replicate (7 - msg.length % 8) 0 ++ [UInt8.ofNat msg.length]

/-- The words of the padded message. -/
def words (msg : List UInt8) : List UInt64 := (blocks 8 (padded msg)).map leWord

/-- SipHash-`c`-`d` of a sequence of words. -/
def hashWords (c d : Nat) (k0 k1 : UInt64) (ws : List UInt64) : UInt64 :=
  finalize d (ws.foldl (compress c) (init k0 k1))

/-! ### The words determine the message -/

/-- The padding fills the last word. -/
theorem length_padded (msg : List UInt8) :
    (padded msg).length = 8 * (msg.length / 8 + 1) := by
  rw [padded, List.length_append, List.length_append, List.length_replicate, List.length_singleton]
  omega

/-- The number of blocks gives the length up to 8, and the last byte gives it modulo 256. -/
theorem padded_injective : Function.Injective padded := by
  intro a b h
  have hblocks : a.length / 8 = b.length / 8 := by
    have hlen := congrArg List.length h
    rw [length_padded, length_padded] at hlen
    omega
  obtain ⟨hbody, hlast⟩ := List.append_inj' h rfl
  have hbyte : a.length % 256 = b.length % 256 :=
    congrArg UInt8.toNat (List.head_eq_of_cons_eq hlast)
  exact (List.append_inj hbody (by omega)).1

/-- A message can be read off its words. -/
theorem words_injective : Function.Injective words := by
  intro a b h
  have hblocks : blocks 8 (padded a) = blocks 8 (padded b) :=
    map_injOn leWord_injOn (fun _ => length_of_mem_blocks) (fun _ => length_of_mem_blocks) h
  apply padded_injective
  rw [← flatten_blocks (by decide) (Dvd.intro _ (length_padded a).symm), hblocks,
    flatten_blocks (by decide) (Dvd.intro _ (length_padded b).symm)]

end TinyRedis.Lib.SipHash

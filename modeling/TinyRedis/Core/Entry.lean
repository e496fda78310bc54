import TinyRedis.Core.Hash

/-!
# `TinyRedis.Core.Entry`: one stored key/value pair

The model of `src/core/entry.h`, `src/core/entry.cpp` and `src/core/clock.h`. Fixed-width fields
keep their width: `UInt32` for the hash, the clock and the two lengths, `Int64` for the deadline.

An entry has the bytes of its key and then those of its value in one buffer. Up to `kInlineCap`
bytes are stored in place, and more in a block of the heap. Which of the two it is follows from the
two lengths (`Entry.spilled`), not from a tag, so a reader of the union has to agree with its
writer:

* `Payload` is the union with its active member.
* `Entry.buffer` reads it through the member that the lengths select. If that is not the active one
  it answers `none`.
* `Entry.key` and `Entry.value` are views into the buffer.

Code that the language leaves undefined answers `none` throughout the development: a dereference of
a null or freed pointer, a read of the inactive union member, an access outside a buffer, a walk
that does not end. A `some` result therefore says that none of these happened. Signed overflow is
the exception: it wraps here, and has a module of its own (`TinyRedis.Core.Checked`).
-/

set_option autoImplicit false

namespace TinyRedis

/-- The address of a pool block. A nullable `Entry*` is an `Option Ptr`. -/
abbrev Ptr := Nat

/-- Bytes of key and value an entry stores in place. -/
def kInlineCap : UInt32 := 32

/-- The deadline of a key with no TTL. -/
def kNoExpiry : Int64 := -1

/-- The union of `inlineBuf` and `bufPtr`, with its active member. A spill block belongs to
one entry, so the block itself stands for the pointer, at the size it was allocated with. -/
inductive Payload where
  | inlineBuf (bytes : Bytes)
  | bufPtr (block : Bytes)
deriving DecidableEq, Repr

/-- One stored pair, linked into its bucket's chain through `next`. -/
structure Entry where
  next : Option Ptr
  expiresAtMs : Int64
  hash : UInt32
  lruClock : UInt32
  keyLen : UInt32
  valLen : UInt32
  payload : Payload
deriving DecidableEq, Repr

/-- The view `{buf + start, size}`. -/
def sliceOf (buf : Bytes) (start size : Nat) : Option Bytes :=
  if start + size ≤ buf.length then some ((buf.drop start).take size) else none

/-- `std::memcpy(dst + at, src, n)`. -/
def memcpy (dst : Bytes) (start : Nat) (src : Bytes) (n : Nat) : Option Bytes :=
  if n ≤ src.length ∧ start + n ≤ dst.length then
    some (dst.take start ++ src.take n ++ dst.drop (start + n))
  else none

/-- A buffer of `n` bytes not written yet. -/
def uninit (n : Nat) : Bytes := List.replicate n 0

namespace Entry

/-- Key and value together do not fit in place. The sum is taken in `uint32_t`. -/
def spilled (e : Entry) : Bool := e.keyLen + e.valLen > kInlineCap

/-- The bytes of the active buffer, read through the member that `spilled` selects. -/
def buffer (e : Entry) : Option Bytes :=
  match e.spilled, e.payload with
  | true, .bufPtr block => some block
  | false, .inlineBuf bytes => some bytes
  | _, _ => none

/-- The view of `size` bytes from `start` on, in the buffer that the entry uses. -/
def getBufData (e : Entry) (start size : UInt32) : Option Bytes := do
  sliceOf (← e.buffer) start.toNat size.toNat

/-- The bytes of the key. -/
def key (e : Entry) : Option Bytes := e.getBufData 0 e.keyLen

/-- The bytes of the value, which stand behind the key. -/
def value (e : Entry) : Option Bytes := e.getBufData e.keyLen e.valLen

/-- True once `now` has exceeded the deadline. Persistent keys never expire. -/
def expired (e : Entry) (now : Int64) : Bool :=
  if e.expiresAtMs = kNoExpiry then false else now > e.expiresAtMs

end Entry

end TinyRedis

import TinyRedis.Core.Bits

/-!
# `TinyRedis.Core.Buffer`: the growable byte buffer

The model of `src/core/buffer.h` and `src/core/buffer.cpp`. Every connection has two of these
buffers: `read` fills the one, and `write` drains the other.

* `readable` are the bytes between the two cursors. They are what a caller of the buffer sees.
* `ensureWritable` makes room at the tail: it does nothing, moves the readable bytes to the front,
  or lets the storage grow, in this order of preference.
* `append` and `appendByte` write at the tail. `write` and `poke` stand for a copy to `writePtr()`,
  with and without the `commit` that makes the bytes readable.
* `consume` retires bytes at the front.

The order of the two cursors and the end of the storage is part of the type, so every operation
below shows that it keeps it. `commit` and `consume` past that order, which the source asserts
against, answer `none`.

Sizes are `Nat`: a vector of bytes is far shorter than `2 ^ 63`, so `2 * capacity()` and
`size() + n` do not wrap.
-/

set_option autoImplicit false

namespace TinyRedis

/-- The storage that a buffer of a connection starts with. -/
def kDefaultCapacity : Nat := 16 * 1024

/-- A growable byte buffer with separate read and write cursors. -/
structure Buffer where
  buf : Bytes
  readIdx : Nat
  writeIdx : Nat
  read_le_write : readIdx ≤ writeIdx
  write_le_length : writeIdx ≤ buf.length

namespace Buffer

/-- `Buffer(initialCapacity)`. -/
def new (initialCapacity : Nat) : Buffer where
  buf := List.replicate initialCapacity 0
  readIdx := 0
  writeIdx := 0
  read_le_write := Nat.le_refl 0
  write_le_length := Nat.zero_le _

/-- The number of readable bytes. -/
def size (b : Buffer) : Nat := b.writeIdx - b.readIdx

/-- The bytes between the read and write cursors. -/
def readable (b : Buffer) : Bytes := (b.buf.drop b.readIdx).take b.size

/-- Nothing is readable. -/
def empty (b : Buffer) : Bool := b.readIdx = b.writeIdx

/-- The size of the storage, readable or not. -/
def capacity (b : Buffer) : Nat := b.buf.length

/-- The room behind the write cursor. -/
def writableBytes (b : Buffer) : Nat := b.buf.length - b.writeIdx

/-- The readable bytes are all in the storage, so the view has its full size. -/
theorem length_readable (b : Buffer) : b.readable.length = b.size := by
  have h := b.read_le_write
  have h' := b.write_le_length
  rw [readable, size, List.length_take, List.length_drop]
  omega

/-- Moves the readable bytes to the front. The bytes behind them stay as they are. -/
def compact (b : Buffer) : Buffer where
  buf := b.readable ++ b.buf.drop b.size
  readIdx := 0
  writeIdx := b.size
  read_le_write := Nat.zero_le _
  write_le_length := by rw [List.length_append, length_readable]; omega

/-- `buf_.resize(m)`. Its one caller asks for no less than the capacity. -/
def resize (b : Buffer) (m : Nat) : Buffer where
  buf := b.buf ++ List.replicate (m - b.capacity) 0
  readIdx := b.readIdx
  writeIdx := b.writeIdx
  read_le_write := b.read_le_write
  write_le_length := by
    have h := b.write_le_length
    rw [List.length_append]
    omega

/-- Makes room for `n` more bytes. Views and pointers into the buffer do not survive it. -/
def ensureWritable (b : Buffer) (n : Nat) : Buffer :=
  -- enough room at the tail already
  if b.writableBytes ≥ n then b
  else
    -- compact even if we end up resizing
    let b := b.compact
    if b.writableBytes ≥ n then b
    else b.resize (max (2 * b.capacity) (b.size + n))

/-- `bytes` copied to `writePtr()` and committed. -/
def write (b : Buffer) (bytes : Bytes) (_room : bytes.length ≤ b.writableBytes) : Buffer where
  buf := b.buf.take b.writeIdx ++ bytes ++ b.buf.drop (b.writeIdx + bytes.length)
  readIdx := b.readIdx
  writeIdx := b.writeIdx + bytes.length
  read_le_write := Nat.le_trans b.read_le_write (Nat.le_add_right _ _)
  write_le_length := by
    have h' := b.write_le_length
    simp only [List.length_append, List.length_take]
    omega

/-- `bytes` copied to `writePtr()` and not committed. Past the end of the storage it is
undefined. -/
def poke (b : Buffer) (bytes : Bytes) : Option Buffer :=
  if h : bytes.length ≤ b.writableBytes then
    -- The write cursor stays where it is: what is behind it is not readable yet.
    some { b with
      buf := b.buf.take b.writeIdx ++ bytes ++ b.buf.drop (b.writeIdx + bytes.length)
      write_le_length := by
        have h' := b.write_le_length
        simp only [List.length_append, List.length_take]
        omega }
  else none

/-- Publishes the `n` bytes that stand at `writePtr()`. -/
def commit (b : Buffer) (n : Nat) : Option Buffer :=
  if h : n ≤ b.writableBytes then
    some { b with
      writeIdx := b.writeIdx + n
      read_le_write := Nat.le_trans b.read_le_write (Nat.le_add_right _ _)
      write_le_length := by
        have h' := b.write_le_length
        simp only [writableBytes] at h
        omega }
  else none

/-- Retires `n` bytes from the front of `readable()`. -/
def consume (b : Buffer) (n : Nat) : Option Buffer :=
  if h : n ≤ b.size then
    -- Nothing is left: both cursors go back to the front.
    if b.readIdx + n = b.writeIdx then
      some { b with
        readIdx := 0
        writeIdx := 0
        read_le_write := Nat.le_refl 0
        write_le_length := Nat.zero_le _ }
    else
      some { b with
        readIdx := b.readIdx + n
        read_le_write := by
          have h' := b.read_le_write
          simp only [size] at h
          omega }
  else none

/-- `ensureWritable(n)` leaves room for `n` bytes. -/
theorem le_writableBytes_ensureWritable (b : Buffer) (n : Nat) :
    n ≤ (b.ensureWritable n).writableBytes := by
  unfold ensureWritable
  split
  · assumption
  · dsimp only
    split
    · assumption
    · have hw := b.compact.write_le_length
      have hs : b.compact.size = b.compact.writeIdx := Nat.sub_zero _
      simp only [resize, writableBytes, List.length_append, List.length_replicate, capacity] at *
      omega

/-- Copies `bytes` to the tail. Nothing is done for no bytes. -/
def append (b : Buffer) (bytes : Bytes) : Buffer :=
  if bytes.isEmpty then b
  else (b.ensureWritable bytes.length).write bytes (b.le_writableBytes_ensureWritable _)

/-- Copies one byte to the tail. -/
def appendByte (b : Buffer) (c : UInt8) : Buffer :=
  (b.ensureWritable 1).write [c] (b.le_writableBytes_ensureWritable 1)

/-- Forgets what is readable. The storage stays. -/
def clear (b : Buffer) : Buffer where
  buf := b.buf
  readIdx := 0
  writeIdx := 0
  read_le_write := Nat.le_refl 0
  write_le_length := Nat.zero_le _

end Buffer

end TinyRedis

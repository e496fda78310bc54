import Mathlib.Data.List.Basic
import TinyRedis.Core.Buffer
import TinyRedis.Lib.Run

/-!
# `TinyRedis.Proofs.Buffer`: the buffer is a byte queue

Every operation of `Buffer` in terms of `readable`: appended bytes go to its end, consumed bytes
leave its front, and making room does not change it.

* `readable_append`, `consume_spec`, `commit_poke`: what each operation does to the queue.
* `capacity_ensureWritable`: how large the buffer is after making room. It stays as it is while the
  bytes fit, and at least doubles otherwise.
* `Op`, `AllAllowed`: runs of operations. A run may ask for no more than the source can compute, and
  may not commit or consume what is not there.
* `run_spec`, `run_eq_queue`: over a whole run, the buffer is the queue that `Op.queue` describes,
  its cursors stay in bounds, and its doubled capacity stays below `2 ^ 64`.

`poke` writes behind the write cursor, as the `read` system call does, and `commit` counts what was
written. A caller may commit less than it wrote, or write without committing; `Op.fill` is all of
it, with the room asked for first.

The bound on the capacity is what the doubling in `ensureWritable` needs: the source computes
`2 * capacity` in a `size_t`.
-/

set_option autoImplicit false

namespace TinyRedis.Buffer

/-- A buffer is empty when there is nothing to read. -/
theorem empty_iff {b : Buffer} : b.empty = true ↔ b.readable = [] := by
  have h := b.read_le_write
  rw [← List.length_eq_zero_iff, length_readable, size, empty, decide_eq_true_eq]
  omega

/-- A new buffer has room, and nothing in it. -/
@[simp] theorem readable_new (n : Nat) : (Buffer.new n).readable = [] := by
  simp [new, readable, size]

/-- Moving the bytes to the front leaves them what they are. -/
@[simp] theorem readable_compact (b : Buffer) : b.compact.readable = b.readable := by
  show ((b.readable ++ b.buf.drop b.size).drop 0).take (b.size - 0) = b.readable
  rw [List.drop_zero, Nat.sub_zero, ← b.length_readable, List.take_left]

/-- A larger allocation leaves the bytes what they are. -/
@[simp] theorem readable_resize (b : Buffer) (m : Nat) : (b.resize m).readable = b.readable := by
  have h := b.read_le_write
  have h' := b.write_le_length
  show ((b.buf ++ List.replicate _ 0).drop b.readIdx).take b.size = _
  rw [List.drop_append_of_le_length (by omega), List.take_append_of_le_length]
  · rfl
  · rw [List.length_drop, size]
    omega

/-- Making room changes nothing that can be read. -/
@[simp] theorem readable_ensureWritable (b : Buffer) (n : Nat) :
    (b.ensureWritable n).readable = b.readable := by
  unfold ensureWritable
  split
  · rfl
  · dsimp only
    split
    · exact b.readable_compact
    · rw [readable_resize, readable_compact]

/-! ### Copying and committing -/

/-- `commit` publishes what stands behind the write cursor. -/
theorem commit_spec {b : Buffer} {k : Nat} (hk : k ≤ b.writableBytes) :
    ∃ b', b.commit k = some b' ∧ b'.readable = b.readable ++ (b.buf.drop b.writeIdx).take k ∧
      b'.capacity = b.capacity := by
  have h := b.read_le_write
  rw [commit, dif_pos hk]
  refine ⟨_, rfl, ?_, rfl⟩
  show (b.buf.drop b.readIdx).take (b.writeIdx + k - b.readIdx) = _
  have hsplit : b.writeIdx + k - b.readIdx = b.size + k := by rw [size]; omega
  have hcursor : b.readIdx + b.size = b.writeIdx := by rw [size]; omega
  rw [hsplit, List.take_add, List.drop_drop, hcursor]
  rfl

/-- A copy behind the write cursor stands there, and publishes nothing. -/
theorem poke_spec {b : Buffer} {bytes : Bytes} (hroom : bytes.length ≤ b.writableBytes) :
    ∃ b', b.poke bytes = some b' ∧ b'.readable = b.readable ∧ b'.capacity = b.capacity ∧
      b'.writableBytes = b.writableBytes ∧ bytes <+: b'.buf.drop b'.writeIdx := by
  have h := b.read_le_write
  have h' := b.write_le_length
  have hw : b.writableBytes = b.buf.length - b.writeIdx := rfl
  have hlen : (b.buf.take b.writeIdx).length = b.writeIdx := List.length_take_of_le h'
  have hcap : (b.buf.take b.writeIdx ++ bytes ++ b.buf.drop (b.writeIdx + bytes.length)).length
      = b.buf.length := by
    simp only [List.length_append, hlen, List.length_drop]
    omega
  rw [poke, dif_pos hroom]
  refine ⟨_, rfl, ?_, hcap, congrArg (· - b.writeIdx) hcap, ?_⟩
  · -- The cursors stay, and what is before the write cursor with them.
    show ((b.buf.take b.writeIdx ++ bytes ++ _).drop b.readIdx).take b.size = _
    rw [List.append_assoc, List.drop_append_of_le_length (by omega), List.drop_take]
    exact List.take_left' b.length_readable
  · show bytes <+: (b.buf.take b.writeIdx ++ bytes ++ _).drop b.writeIdx
    rw [List.append_assoc, List.drop_left' hlen]
    exact List.prefix_append _ _

/-- Of the bytes copied behind the write cursor `commit` publishes the first `k`. -/
theorem commit_poke {b : Buffer} {bytes : Bytes} {k : Nat} (hroom : bytes.length ≤ b.writableBytes)
    (hk : k ≤ bytes.length) :
    ∃ b', (b.poke bytes).bind (·.commit k) = some b' ∧
      b'.readable = b.readable ++ bytes.take k ∧ b'.capacity = b.capacity := by
  obtain ⟨b₁, hpoke, hread₁, hcap₁, hwritable, rest, hrest⟩ := poke_spec hroom
  obtain ⟨b', hcommit, hread, hcap⟩ := commit_spec (b := b₁) (k := k) (by omega)
  refine ⟨b', ?_, ?_, hcap.trans hcap₁⟩
  · rw [hpoke]
    exact hcommit
  · rw [hread, hread₁, ← hrest, List.take_append_of_le_length hk]

/-- `write` is the copy and the commit of `append`, `appendByte` and a read from a socket. -/
theorem some_write {b : Buffer} {bytes : Bytes} (room : bytes.length ≤ b.writableBytes) :
    some (b.write bytes room) = (b.poke bytes).bind (·.commit bytes.length) := by
  have hw : b.writableBytes = b.buf.length - b.writeIdx := rfl
  have h' := b.write_le_length
  rw [poke, dif_pos room, Option.bind_some, commit, dif_pos]
  · rfl
  · simp only [writableBytes, List.length_append, List.length_take, List.length_drop]
    omega

/-- Bytes that are written into the room are read last. -/
@[simp] theorem readable_write (b : Buffer) (bytes : Bytes)
    (room : bytes.length ≤ b.writableBytes) :
    (b.write bytes room).readable = b.readable ++ bytes := by
  obtain ⟨b', hb', hread, -⟩ := commit_poke room (Nat.le_refl _)
  rw [← some_write room] at hb'
  cases hb'
  rw [hread, List.take_length]

/-- Writing into the room needs no allocation. -/
theorem capacity_write (b : Buffer) (bytes : Bytes) (room : bytes.length ≤ b.writableBytes) :
    (b.write bytes room).capacity = b.capacity := by
  obtain ⟨b', hb', -, hcap⟩ := commit_poke room (Nat.le_refl _)
  rw [← some_write room] at hb'
  cases hb'
  exact hcap

/-- `append`, on the queue. -/
@[simp] theorem readable_append (b : Buffer) (bytes : Bytes) :
    (b.append bytes).readable = b.readable ++ bytes := by
  unfold append
  split
  · next hempty =>
    rw [List.isEmpty_iff.mp hempty, List.append_nil]
  · rw [readable_write, readable_ensureWritable]

/-- `appendByte`, on the queue. -/
@[simp] theorem readable_appendByte (b : Buffer) (c : UInt8) :
    (b.appendByte c).readable = b.readable ++ [c] := by
  rw [appendByte, readable_write, readable_ensureWritable]

/-- Consumed bytes leave the front. -/
theorem consume_spec {b : Buffer} {n : Nat} (hn : n ≤ b.readable.length) :
    ∃ b', b.consume n = some b' ∧ b'.readable = b.readable.drop n := by
  have h := b.read_le_write
  rw [length_readable] at hn
  unfold consume
  rw [dif_pos hn]
  split
  · next hall =>
    refine ⟨_, rfl, ?_⟩
    rw [List.drop_of_length_le (by rw [length_readable, size]; omega)]
    exact List.take_zero
  · refine ⟨_, rfl, ?_⟩
    show (b.buf.drop (b.readIdx + n)).take (b.writeIdx - (b.readIdx + n))
      = ((b.buf.drop b.readIdx).take b.size).drop n
    rw [List.drop_take, List.drop_drop, size]
    congr 1
    omega

/-! ### Room -/

/-- Moving the bytes is done in place. -/
theorem capacity_compact (b : Buffer) : b.compact.capacity = b.capacity := by
  have h := b.read_le_write
  have h' := b.write_le_length
  rw [capacity, capacity, compact, List.length_append, length_readable, List.length_drop, size]
  omega

/-- After it, all that is free is behind the write cursor. -/
theorem writableBytes_compact (b : Buffer) : b.compact.writableBytes = b.capacity - b.size := by
  show b.compact.capacity - b.size = _
  rw [capacity_compact]

/-- A resize only ever grows the buffer. -/
theorem capacity_resize (b : Buffer) (m : Nat) : (b.resize m).capacity = max b.capacity m := by
  show (b.buf ++ List.replicate (m - b.capacity) 0).length = _
  rw [List.length_append, List.length_replicate]
  show b.capacity + (m - b.capacity) = _
  omega

/-- The storage grows only where the bytes held and the room asked for exceed it. -/
theorem capacity_ensureWritable (b : Buffer) (n : Nat) :
    (b.ensureWritable n).capacity
      = if b.size + n ≤ b.capacity then b.capacity else max (2 * b.capacity) (b.size + n) := by
  have h := b.read_le_write
  have h' := b.write_le_length
  have hw : b.writableBytes = b.capacity - b.writeIdx := rfl
  have hc : b.writeIdx ≤ b.capacity := h'
  have hs : b.size = b.writeIdx - b.readIdx := rfl
  have hcs : b.compact.size = b.size := by rw [← length_readable, readable_compact, length_readable]
  unfold ensureWritable
  dsimp only
  rw [writableBytes_compact, capacity_compact, hcs]
  -- room behind the write cursor; room once the bytes are moved; or a new allocation
  split
  · rw [if_pos (by omega)]
  split
  · rw [if_pos (by omega), capacity_compact]
  · rw [if_neg (by omega), capacity_resize, capacity_compact]
    omega

/-! ### Runs -/

/-- A call of a client, with what it copies behind the write cursor. -/
inductive Op where
  | append (bytes : Bytes)
  | appendByte (c : UInt8)
  /-- `ensureWritable(n)`, `bytes` written at `writePtr()`, and `commit(k)`. -/
  | fill (n : Nat) (bytes : Bytes) (k : Nat)
  | consume (k : Nat)
  | clear
deriving DecidableEq, Repr

namespace Op

/-- The operation, as the source has it. -/
def run (b : Buffer) : Op → Option Buffer
  | append bytes => some (b.append bytes)
  | appendByte c => some (b.appendByte c)
  | fill n bytes k => do
      let b ← (b.ensureWritable n).poke bytes
      b.commit k
  | consume k => b.consume k
  | clear => some b.clear

/-- The same call of a queue of bytes. -/
def queue (q : Bytes) : Op → Bytes
  | append bytes => q ++ bytes
  | appendByte c => q ++ [c]
  | fill _ bytes k => q ++ bytes.take k
  | consume k => q.drop k
  | clear => []

/-- The room that the call asks `ensureWritable` for. -/
def request : Op → Nat
  | append bytes => bytes.length
  | appendByte _ => 1
  | fill n _ _ => n
  | consume _ | clear => 0

/-- No more is written than `writableBytes()`, no more committed than written, and no more consumed
than there is. -/
def InBounds (b : Buffer) : Op → Prop
  | fill n bytes k => bytes.length ≤ (b.ensureWritable n).writableBytes ∧ k ≤ bytes.length
  | consume k => k ≤ b.size
  | append _ | appendByte _ | clear => True

/-- What a caller owes: the call is in bounds, and the sizes stay away from the end of `size_t`
where it asks for room. -/
def Allowed (b : Buffer) (op : Op) : Prop :=
  op.InBounds b ∧ (0 < op.request → b.size + op.request < 2 ^ 62)

/-- The bounds of an operation can be checked before it is made. -/
instance (b : Buffer) : (op : Op) → Decidable (op.InBounds b)
  | fill _ _ _ => inferInstanceAs (Decidable (_ ∧ _))
  | consume _ => inferInstanceAs (Decidable (_ ≤ _))
  | append _ | appendByte _ | clear => inferInstanceAs (Decidable True)

/-- Whether an operation is allowed can be checked before it is made. -/
instance (b : Buffer) (op : Op) : Decidable (op.Allowed b) :=
  inferInstanceAs (Decidable (_ ∧ (_ → _)))

end Op

/-- Every call of the run is allowed of the buffer that it meets. -/
def AllAllowed : Buffer → List Op → Prop
  | _, [] => True
  | b, op :: ops => op.Allowed b ∧ ∀ b' ∈ op.run b, AllAllowed b' ops

/-- A run can be checked as it goes. -/
instance decidableAllAllowed : (b : Buffer) → (ops : List Op) → Decidable (AllAllowed b ops)
  | _, [] => isTrue trivial
  | b, op :: ops =>
      have := fun b' => decidableAllAllowed b' ops
      inferInstanceAs (Decidable (op.Allowed b ∧ ∀ b' ∈ op.run b, AllAllowed b' ops))

/-- What can be read lies in the buffer. -/
theorem size_le_capacity (b : Buffer) : b.size ≤ b.capacity :=
  Nat.le_trans (Nat.sub_le _ _) b.write_le_length

/-- Consuming gives back no memory. -/
theorem capacity_consume {b b' : Buffer} {k : Nat} (h : b.consume k = some b') :
    b'.capacity = b.capacity := by
  unfold consume at h
  split at h
  · split at h <;> cases h <;> rfl
  · cases h

/-- An append grows the buffer exactly when making room for it does. -/
theorem capacity_append (b : Buffer) (bytes : Bytes) :
    (b.append bytes).capacity = (b.ensureWritable bytes.length).capacity := by
  unfold append
  split
  · next hempty =>
    -- No bytes need no room.
    rw [List.isEmpty_iff.mp hempty, capacity_ensureWritable]
    exact (if_pos b.size_le_capacity).symm
  · exact capacity_write ..

/-- A call that is allowed is defined, is that of the queue, and grows the storage as its request
for room does. -/
theorem Op.run_spec {b : Buffer} {op : Op} (hop : op.InBounds b) :
    ∃ b', op.run b = some b' ∧ b'.readable = op.queue b.readable ∧
      b'.capacity = (b.ensureWritable op.request).capacity := by
  -- A call that asks for no room leaves the storage as it is.
  have hnone : (b.ensureWritable 0).capacity = b.capacity := by
    rw [capacity_ensureWritable]
    exact if_pos b.size_le_capacity
  cases op with
  | append bytes => exact ⟨_, rfl, b.readable_append bytes, b.capacity_append bytes⟩
  | appendByte c => exact ⟨_, rfl, b.readable_appendByte c, capacity_write ..⟩
  | fill n bytes k =>
    obtain ⟨b', hb', hread, hcap⟩ := commit_poke hop.1 hop.2
    exact ⟨b', hb', by rw [hread, readable_ensureWritable]; rfl, hcap⟩
  | consume k =>
    obtain ⟨b', hb', hread⟩ := consume_spec (n := k) (by rw [length_readable]; exact hop)
    exact ⟨b', hb', hread, (capacity_consume hb').trans hnone.symm⟩
  | clear => exact ⟨_, rfl, List.take_zero, hnone.symm⟩

/-- While the sizes stay below `2 ^ 62` the storage stays below `2 ^ 63`: it at most doubles, from
less than what is held and asked for. -/
theorem capacity_ensureWritable_lt {b : Buffer} {n : Nat} (hcap : b.capacity < 2 ^ 63)
    (hn : 0 < n → b.size + n < 2 ^ 62) : (b.ensureWritable n).capacity < 2 ^ 63 := by
  have hsize := b.size_le_capacity
  rw [capacity_ensureWritable]
  split <;> omega

/-- Making room never shrinks the buffer. -/
theorem capacity_le_ensureWritable (b : Buffer) (n : Nat) :
    b.capacity ≤ (b.ensureWritable n).capacity := by
  rw [capacity_ensureWritable]
  split <;> omega

/-- What a run of allowed calls keeps. -/
theorem run_spec {cap : Nat} (hcap : cap < 2 ^ 62) {ops : List Op}
    (hops : AllAllowed (Buffer.new cap) ops) :
    ∃ b, ops.foldlM Op.run (Buffer.new cap) = some b ∧ b.readable = ops.foldl Op.queue [] ∧
      b.capacity < 2 ^ 63 := by
  -- Besides, the calls still to come are allowed of the buffer they will meet.
  have hrule : ∃ b, ops.foldlM Op.run (Buffer.new cap) = some b ∧
      b.readable = ops.foldl Op.queue [] ∧ b.capacity < 2 ^ 63 ∧
      ∀ rest, ops = ops ++ rest → AllAllowed b rest := by
    refine Lib.foldlM_rule (fun done b => b.readable = done.foldl Op.queue [] ∧
      b.capacity < 2 ^ 63 ∧ ∀ rest, ops = done ++ rest → AllAllowed b rest) ?_ ?_
    · rintro done op rest b hl ⟨hread, hlt, hallowed⟩
      obtain ⟨hop, hrest⟩ := hallowed (op :: rest) hl
      obtain ⟨b', hb', hread', hcap'⟩ := Op.run_spec hop.1
      refine ⟨b', hb', ?_, ?_, fun rest' hl' => ?_⟩
      · rw [hread', hread, List.foldl_append]
        rfl
      · rw [hcap']
        exact capacity_ensureWritable_lt hlt hop.2
      · have heq : rest = rest' := by simpa [hl] using hl'
        exact heq ▸ hrest b' hb'
    · refine ⟨readable_new cap, ?_, ?_⟩
      · rw [capacity, new, List.length_replicate]
        omega
      · rintro rest rfl
        exact hops
  obtain ⟨b, hrun, hread, hlt, -⟩ := hrule
  exact ⟨b, hrun, hread, hlt⟩

/-- The buffer is a byte queue. After any run of allowed calls it holds what a queue would hold, its
cursors are in order, and no size that it computes leaves `size_t`. Making room changes nothing
that is held, and every further call is that of the queue and grows the storage only where the
bytes held and the room asked for exceed it. -/
theorem run_eq_queue (cap : Nat) (hcap : cap < 2 ^ 62) (ops : List Op)
    (hops : AllAllowed (Buffer.new cap) ops) :
    ∃ b, ops.foldlM Op.run (Buffer.new cap) = some b ∧ b.readable = ops.foldl Op.queue [] ∧
      b.readIdx ≤ b.writeIdx ∧ b.writeIdx ≤ b.capacity ∧ 2 * b.capacity < 2 ^ 64 ∧
      (∀ n, (b.ensureWritable n).readable = b.readable ∧
        n ≤ (b.ensureWritable n).writableBytes ∧ b.capacity ≤ (b.ensureWritable n).capacity ∧
        (b.size + n ≤ b.capacity → (b.ensureWritable n).capacity = b.capacity)) ∧
      ∀ op : Op, op.Allowed b → ∃ b', op.run b = some b' ∧ b'.readable = op.queue b.readable ∧
        b.capacity ≤ b'.capacity ∧
        (b.size + op.request ≤ b.capacity → b'.capacity = b.capacity) := by
  obtain ⟨b, hrun, hread, hlt⟩ := run_spec hcap hops
  refine ⟨b, hrun, hread, b.read_le_write, b.write_le_length, by omega, fun n => ?_, ?_⟩
  · refine ⟨b.readable_ensureWritable n, b.le_writableBytes_ensureWritable n,
      b.capacity_le_ensureWritable n, fun hroom => ?_⟩
    rw [capacity_ensureWritable, if_pos hroom]
  · intro op hop
    obtain ⟨b', hb', hread', hcap'⟩ := Op.run_spec hop.1
    refine ⟨b', hb', hread', ?_, fun hroom => ?_⟩
    · rw [hcap']
      exact b.capacity_le_ensureWritable _
    · rw [hcap', capacity_ensureWritable, if_pos hroom]

/-- A buffer with no storage: three bytes committed of four written, part of them consumed, an
append that compacts and one that grows. -/
theorem run_eq_queue_of_empty :
    let ops : List Op := [.fill 4 [1, 2, 3, 4] 3, .consume 2, .append [5, 6, 7], .appendByte 8]
    ∃ b, ops.foldlM Op.run (Buffer.new 0) = some b ∧ b.readable = [3, 5, 6, 7, 8] ∧
      2 * b.capacity < 2 ^ 64 := by
  intro ops
  obtain ⟨b, hrun, hread, -, -, hlt, -⟩ := run_eq_queue 0 (by decide) ops (by decide)
  exact ⟨b, hrun, hread, hlt⟩

end TinyRedis.Buffer

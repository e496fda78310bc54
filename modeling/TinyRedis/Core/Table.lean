import TinyRedis.Core.Pool
import TinyRedis.Lib.Chain

/-!
# `TinyRedis.Core.Table`: the chained hash table

The model of `src/core/table.h` and `src/core/table.cpp`. Entries live in pool blocks, `mem` is what
the blocks hold, and the chains are the `next` links of the source, rewired as the source rewires
them. A block that is not outstanding holds nothing, so a use after free is a `none`.

* `find` walks the chain of a hash. `insert` puts a new entry at the head of its chain, and `remove`
  takes one out through the link that leads to it (`Link`, `linkTo`).
* `assign` replaces a value in place. The bytes move between the entry and the heap where the new
  length asks for it (`assignBuffer`).
* `maybeGrow` and `rehash` double the bucket array and relink every entry.
* `sampleSome` collects entries from a random bucket on, and `scanBucket` visits one bucket of a
  scan and moves its cursor.

A loop over a chain is `Lib.walk` with `kPoolCapacity` rounds: a chain of distinct blocks is never
longer, so a loop that has not ended by then goes round a cycle.
-/

set_option autoImplicit false

namespace TinyRedis

open Lib

/-- The least number of buckets. -/
def kMinBuckets : Nat := 4

variable [EntryPool]

/-- What the pool blocks hold. -/
abbrev Memory := Ptr → Option Entry

/-- The members of `Table`, and the memory that the blocks of its pool make up. -/
structure Table where
  buckets : List (Option Ptr)
  pool : EntryPool.Pool
  liveCount : Nat
  hashSeed : UInt64
  mem : Memory

/-- A place that holds a link of a chain: a bucket slot, or the `next` field of an entry. -/
inductive Link where
  | slot (i : Nat)
  | nextOf (p : Ptr)
deriving DecidableEq, Repr

namespace Table

/-- `Table(initialBuckets, hashSeed)`. -/
def new (initialBuckets : Nat) (hashSeed : UInt64) : Option Table := do
  let n ← nextPow2 initialBuckets
  return { buckets := List.replicate (max kMinBuckets n) none, pool := EntryPool.empty,
           liveCount := 0, hashSeed, mem := fun _ => none }

/-- The number of entries. -/
def size (t : Table) : Nat := t.liveCount

/-- The number of buckets. -/
def bucketCount (t : Table) : Nat := t.buckets.length

/-- The bucket of a hash. The number of buckets is a power of two. -/
def bucketOf (t : Table) (h : UInt32) : Nat := h.toNat &&& (t.bucketCount - 1)

/-- The low 32 bits of a key's hash under the table's seed. -/
def hash32 (seed : UInt64) (key : Bytes) : UInt32 := (hashBytes key seed).toUInt32

/-- The test of `find`: `e->hash == h32 && e->keyLen == key.size() && e->key() == key`. -/
def hit (h32 : UInt32) (key : Bytes) (e : Entry) : Option Bool :=
  if e.hash = h32 ∧ e.keyLen.toNat = key.length then do return (← e.key) = key
  else some false

/-- The entry under `key`, or null. -/
def find (t : Table) (key : Bytes) : Option (Option Ptr) := do
  let h32 := hash32 t.hashSeed key
  let head ← t.buckets[t.bucketOf h32]?
  walk (fun _ => t.mem) Entry.next
    (fun p e _ => do
      if ← hit h32 key e then return .done (some p) else return .yield none)
    -- No chain is longer than the pool.
    kPoolCapacity head none

/-- The relinking of one entry in `rehash`. The state is the memory and the new bucket
array. -/
def relink (mask : Nat) (p : Ptr) (e : Entry) (s : Memory × List (Option Ptr)) :
    Option (ForInStep (Memory × List (Option Ptr))) := do
  let i := e.hash.toNat &&& mask
  let slot ← s.2[i]?
  -- The entry goes to the head of its new chain, so chains come out in reverse.
  return .yield (Function.update s.1 p (some { e with next := slot }), s.2.set i (some p))

/-- Relinks every entry into `newBucketCount` fresh chains. -/
def rehash (t : Table) (newBucketCount : Nat) : Option Table := do
  let next := List.replicate newBucketCount none
  let mask := newBucketCount - 1
  let (mem, next) ← t.buckets.foldlM
    (fun s head => walk (fun s => s.1) Entry.next (relink mask) kPoolCapacity head s)
    (t.mem, next)
  return { t with buckets := next, mem }

/-- Doubles the buckets when there are more entries than buckets. -/
def maybeGrow (t : Table) : Option Table :=
  if t.liveCount > t.bucketCount then t.rehash (t.bucketCount * 2) else some t

/-- The bytes `insert` writes: the key, then the value, in a spill block or in place. -/
def packPayload (key value : Bytes) : Option Payload := do
  let keyLen := UInt32.ofNat key.length
  let valLen := UInt32.ofNat value.length
  let spill : Bool := keyLen + valLen > kInlineCap
  let dst := uninit (if spill then (keyLen + valLen).toNat else kInlineCap.toNat)
  let dst ← memcpy dst 0 key keyLen.toNat
  let dst ← memcpy dst keyLen.toNat value valLen.toNat
  return if spill then .bufPtr dst else .inlineBuf dst

/-- Inserts an absent key at the head of its chain. The pointer is null only when the pool
is exhausted. May grow the table. -/
def insert (t : Table) (key value : Bytes) : Option (Option Ptr × Table) :=
  match EntryPool.tryAllocate t.pool with
  | none => some (none, t)
  | some (p, pool) => do
      let hash := hash32 t.hashSeed key
      let payload ← packPayload key value
      let i := t.bucketOf hash
      let head ← t.buckets[i]?
      let e : Entry :=
        { next := head, expiresAtMs := kNoExpiry, hash, lruClock := 0
          keyLen := UInt32.ofNat key.length, valLen := UInt32.ofNat value.length, payload }
      let t := { t with
        pool, mem := Function.update t.mem p (some e), buckets := t.buckets.set i (some p)
        liveCount := t.liveCount + 1 }
      -- the load is checked with the new entry in
      let t ← t.maybeGrow
      return (some p, t)

/-- The buffer `assign` writes the value to, with the key in front: a new spill block with
the key moved into it, the inline buffer with the key moved back, or the buffer the
entry has. -/
def assignBuffer (e : Entry) (valLen : UInt32) : Option Bytes := do
  let wasSpilled := e.spilled
  let willSpill : Bool := e.keyLen + valLen > kInlineCap
  -- A block that is large enough is kept, also for a shorter value.
  if willSpill && (!wasSpilled || valLen > e.valLen) then
    let key ← e.key
    memcpy (uninit (e.keyLen + valLen).toNat) 0 key e.keyLen.toNat
  else if !willSpill && wasSpilled then
    let old ← e.buffer
    memcpy (uninit kInlineCap.toNat) 0 old e.keyLen.toNat
  else
    e.buffer

/-- The entry after its value is replaced. -/
def assignEntry (e : Entry) (value : Bytes) : Option Entry := do
  let valLen := UInt32.ofNat value.length
  let dst ← assignBuffer e valLen
  let dst ← memcpy dst e.keyLen.toNat value valLen.toNat
  let payload := if e.keyLen + valLen > kInlineCap then .bufPtr dst else .inlineBuf dst
  return { e with valLen, payload }

/-- New value in place, crossing the inline/spilled boundary either way. -/
def assign (t : Table) (p : Ptr) (value : Bytes) : Option Table := do
  let e ← t.mem p
  let e ← assignEntry e value
  return { t with mem := Function.update t.mem p (some e) }

/-- `*link`. -/
def readLink (t : Table) : Link → Option (Option Ptr)
  | .slot i => t.buckets[i]?
  | .nextOf p => (t.mem p).map Entry.next

/-- `*link = q`. -/
def writeLink (t : Table) (q : Option Ptr) : Link → Option Table
  | .slot i => some { t with buckets := t.buckets.set i q }
  | .nextOf p => do
      let e ← t.mem p
      return { t with mem := Function.update t.mem p (some { e with next := q }) }

/-- The loop of `remove`: from `link` on, the link that holds `p`. A null link is
dereferenced, which is undefined. -/
def linkTo (t : Table) (p : Ptr) : (rounds : Nat) → Link → Option Link
  | 0, link => do
      if (← t.readLink link) = some p then some link else none
  | rounds + 1, link => do
      match ← t.readLink link with
      | none => none
      | some q => if q = p then some link else t.linkTo p rounds (.nextOf q)

/-- Unlinks an entry and returns its block to the pool. -/
def remove (t : Table) (p : Ptr) : Option Table := do
  let e ← t.mem p
  let link ← t.linkTo p kPoolCapacity (.slot (t.bucketOf e.hash))
  let t ← t.writeLink e.next link
  return { t with
    pool := EntryPool.deallocate t.pool p, mem := Function.update t.mem p none
    liveCount := t.liveCount - 1 }

/-- One round of `clear`: the entry's block goes back to the pool. -/
def freeEntry (p : Ptr) (_ : Entry) (s : Memory × EntryPool.Pool) :
    Option (ForInStep (Memory × EntryPool.Pool)) :=
  some (.yield (Function.update s.1 p none, EntryPool.deallocate s.2 p))

/-- Gives all blocks back. The bucket array keeps its size. -/
def clear (t : Table) : Option Table := do
  let (mem, pool) ← t.buckets.foldlM
    (fun s head => walk (fun s => s.1) Entry.next freeEntry kPoolCapacity head s)
    (t.mem, t.pool)
  return { t with buckets := t.buckets.map fun _ => none, mem, pool, liveCount := 0 }

/-- The chain loop of `sampleSome`: entries are written until the `slots` are full. -/
def sampleChain (t : Table) (slots : Nat) (head : Option Ptr) (out : List Ptr) :
    Option (List Ptr) :=
  walk (fun _ => t.mem) Entry.next
    (fun p _ out =>
      -- a full sample ends the walk
      some (if out.length < slots then .yield (out ++ [p]) else .done out))
    kPoolCapacity head out

/-- The bucket loop of `sampleSome`, with `budget` steps left. -/
def sampleLoop (t : Table) (slots : Nat) : (budget idx : Nat) → List Ptr → Option (List Ptr)
  | 0, _, out => some out
  | budget + 1, idx, out =>
      if out.length < slots then do
        let head ← t.buckets[idx]?
        let out ← t.sampleChain slots head out
        t.sampleLoop slots budget ((idx + 1) &&& (t.bucketCount - 1)) out
      else some out

/-- Random start bucket, whole chains, at most `slots` entries and `slots * 10` buckets.
Returns the entries written and the new generator state. -/
def sampleSome (t : Table) (slots : Nat) (rngState : UInt64) : Option (List Ptr × UInt64) :=
  if t.size = 0 ∨ slots = 0 then some ([], rngState)
  else do
    let mask := t.bucketCount - 1
    let budget := min (slots * 10) t.bucketCount
    let (z, rngState) := splitmix64 rngState
    let out ← t.sampleLoop slots budget (z.toNat &&& mask) []
    return (out, rngState)

/-- Visits every entry chained at `cursor`, then returns the reverse-binary next cursor. The
visitor gets the table and its own state `σ`, and may remove the entry it was handed. -/
def scanBucket {σ : Type} (t : Table) (cursor : Nat)
    (visit : Ptr → Table × σ → Option (Table × σ)) (s : σ) : Option (Nat × Table × σ) := do
  let mask := t.bucketCount - 1
  let head ← t.buckets[cursor &&& mask]?
  let (t, s) ← walk (fun s => s.1.mem) Entry.next
    (fun p _ s => (visit p s).map .yield) kPoolCapacity head (t, s)
  -- The buckets have not changed in number: a visitor only removes.
  return (nextCursor cursor mask, t, s)

end Table

end TinyRedis

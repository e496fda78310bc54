import TinyRedis.Core.Table

/-!
# `TinyRedis.Core.Store`: expiry, eviction and the expire cycle

The model of `src/core/store.h` and `src/core/store.cpp`, in the release build: `assert` does
nothing.

* `lookup` is behind every access to a key. An entry whose deadline has passed is removed there, and
  counts as an expiry.
* `set` writes through the pointer that `insert` gives back (`insertNew`), and makes room first
  where the store is full (`makeRoom`).
* `evictOne` samples the table until the sample is not empty. It removes the expired entries of the
  sample, or the one entry of it that has idled longest.
* `activeExpireCycle` is the sweep: passes over the buckets from a cursor that it keeps
  (`expirePass`), repeated while a pass finds much that has expired (`expireLoop`).

Times are `Int64`. The only signed arithmetic on them is the difference in `ttlMs`. It wraps in the
model; in the source an overflow is undefined (`TinyRedis.Checked.ttlMs`). The clock of the LRU
is unsigned in the source too, so that wraps in both. Counters that only ever count up are `Nat`.
-/

set_option autoImplicit false

namespace TinyRedis

/-- The most passes of an expire cycle. -/
def kMaxPasses : Nat := 16

/-- A deadline that stands for the one the key has. -/
def kKeepTtl : Int64 := -2

/-- What the seed is mixed with for the generator of the samples. -/
def kRngSalt : UInt64 := 0x9e3779b97f4a7c15

/-- The slots of the sample buffer on `evictOne`'s stack. -/
def kLruSamplesMax : Nat := 64

/-- What a full store does with a new key. -/
inductive EvictionPolicy where
  | kNoEviction
  | kAllKeysLru
deriving DecidableEq, Repr

/-- What an expire cycle has done. -/
structure ExpireCycleResult where
  reaped : Nat
  passes : Nat
deriving DecidableEq, Repr

/-- `Store::Config`, with the defaults of the source. -/
structure Config where
  initialBuckets : Nat := 1024
  maxKeys : Nat := 0
  seed : UInt64 := 0
  lruSamples : Nat := 5
  policy : EvictionPolicy := .kNoEviction
deriving DecidableEq, Repr

/-- `static_cast<std::uint32_t>(now)`. -/
def clock32 (now : Int64) : UInt32 := now.toUInt64.toUInt32

/-- How long an entry has gone unused, on the 32-bit clock. -/
def idle (e : Entry) (now : Int64) : UInt32 := clock32 now - e.lruClock

/-- A configured seed, or the 64 bits that the random device gives. -/
def resolveSeed (seed rd : UInt64) : UInt64 := if seed ≠ 0 then seed else rd

variable [EntryPool]

/-- The cap on the keys. Zero stands for the capacity of the pool, and nothing is checked. -/
def resolveMaxKeys (maxKeys : Nat) : Nat := if maxKeys = 0 then kPoolCapacity else maxKeys

/-- The members of `Store`. -/
structure Store where
  rngState : UInt64
  maxKeys : Nat
  expireCursor : Nat
  evictions : Nat
  expiredKeys : Nat
  lruSamples : Nat
  table : Table
  policy : EvictionPolicy

namespace Store

/-- `Store(cfg)`, where `rd` is what the random device would give. A set cap presizes the
table. -/
def new (cfg : Config) (rd : UInt64) : Option Store := do
  let seed := resolveSeed cfg.seed rd
  let buckets := if cfg.maxKeys = 0 then cfg.initialBuckets
    else max cfg.initialBuckets cfg.maxKeys
  let table ← Table.new buckets seed
  return { rngState := kRngSalt ^^^ seed, maxKeys := resolveMaxKeys cfg.maxKeys,
           expireCursor := 0, evictions := 0, expiredKeys := 0, lruSamples := cfg.lruSamples,
           table, policy := cfg.policy }

/-- The number of entries, expired ones included. -/
def size (s : Store) : Nat := s.table.size

/-- The number of buckets of the table. -/
def bucketCount (s : Store) : Nat := s.table.bucketCount

/-- The live entry under `key`. An expired one is removed on the way. -/
def lookup (s : Store) (key : Bytes) (now : Int64) : Option (Option Ptr × Store) := do
  match ← s.table.find key with
  | none => return (none, s)
  | some found =>
      let e ← s.table.mem found
      if e.expired now then
        let table ← s.table.remove found
        return (none, { s with table, expiredKeys := s.expiredKeys + 1 })
      else return (some found, s)

/-- `while (n == 0) n += sampleSome(out, rngState_)`, for at most `tries` rounds. The loop
changes the generator state only, and that has `2 ^ 64` values: a loop that has not ended
after as many rounds never ends. -/
def sampleRetry (t : Table) (slots : Nat) : (tries : Nat) → UInt64 → Option (List Ptr × UInt64)
  | 0, _ => none
  | tries + 1, rngState => do
      let (out, rngState) ← t.sampleSome slots rngState
      if out.length = 0 then sampleRetry t slots tries rngState else return (out, rngState)

/-- The locals of the candidate loop of `evictOne`. -/
structure EvictState where
  table : Table
  expiredKeys : Nat
  hasExpiredOne : Bool
  toEvict : Option Ptr

/-- One candidate: an expired one is removed, a live one that has idled longer than the best so
far becomes the best. -/
def evictStep (now : Int64) (s : EvictState) (p : Ptr) : Option EvictState := do
  let e ← s.table.mem p
  if e.expired now then
    let table ← s.table.remove p
    return { s with table, expiredKeys := s.expiredKeys + 1, hasExpiredOne := true }
  else
    match s.toEvict with
    | none => return { s with toEvict := some p }
    | some q =>
        let f ← s.table.mem q
        if idle e now > idle f now then return { s with toEvict := some p } else return s

/-- Removes the expired entries of a sample, or the one of its live entries that has idled
longest. A sample that overruns the buffer is undefined. -/
def evictOne (s : Store) (now : Int64) : Option Store := do
  let (out, rngState) ← sampleRetry s.table s.lruSamples (2 ^ 64) s.rngState
  -- `out` is an array of `kLruSamplesMax` pointers
  guard (out.length ≤ kLruSamplesMax)
  let r ← out.foldlM (evictStep now)
    { table := s.table, expiredKeys := s.expiredKeys, hasExpiredOne := false, toEvict := none }
  let s := { s with rngState, table := r.table, expiredKeys := r.expiredKeys }
  if r.hasExpiredOne then return s
  else
    -- a null `toEvict` would be dereferenced here
    let table ← s.table.remove (← r.toEvict)
    return { s with table, evictions := s.evictions + 1 }

/-- A write to fields of the entry at `p`, through the pointer. -/
def modify (s : Store) (p : Ptr) (f : Entry → Entry) : Option Store := do
  let e ← s.table.mem p
  return { s with table := { s.table with mem := Function.update s.table.mem p (some (f e)) } }

/-- The live entry under `key`. A touch makes it the one used last. -/
def find (s : Store) (key : Bytes) (now : Int64) (touch : Bool) :
    Option (Option Ptr × Store) := do
  let (found, s) ← s.lookup key now
  match found with
  | none => return (none, s)
  | some p =>
      if touch then
        let s ← s.modify p fun e => { e with lruClock := clock32 now }
        return (some p, s)
      else return (some p, s)

/-- Room for a new key: nothing to do below the cap, and at the cap what the policy says.
`false` when the set is refused. -/
def makeRoom (s : Store) (now : Int64) : Option (Bool × Store) :=
  if s.size ≥ s.maxKeys then
    match s.policy with
    | .kNoEviction => some (false, s)
    | .kAllKeysLru => do return (true, ← s.evictOne now)
  else some (true, s)

/-- The insertion of a new key at the end of `set`. The new entry is written through the pointer
`insert` returns, null or not. -/
def insertNew (s : Store) (key value : Bytes) (expireAtMs now : Int64) : Option Store := do
  let (e, table) ← s.table.insert key value
  let s := { s with table }
  s.modify (← e) fun e => { e with
    expiresAtMs := if expireAtMs = kKeepTtl then kNoExpiry else expireAtMs
    lruClock := clock32 now }

/-- Stores the pair. A deadline that has passed deletes the key instead, and `false` says that the
store is full. -/
def set (s : Store) (key value : Bytes) (expireAtMs now : Int64) : Option (Bool × Store) := do
  let (found, s) ← s.lookup key now
  -- The sentinels are negative, so they are told apart before the deadline is compared.
  if expireAtMs ≠ kNoExpiry ∧ expireAtMs ≠ kKeepTtl ∧ expireAtMs < now then
    -- past deadline
    match found with
    | some p => return (true, { s with table := ← s.table.remove p })
    | none => return (true, s)
  else
    match found with
    | some p =>
        -- found, overwrite
        let s := { s with table := ← s.table.assign p value }
        let s ← s.modify p fun e => { e with
          expiresAtMs := if expireAtMs = kKeepTtl then e.expiresAtMs else expireAtMs
          lruClock := clock32 now }
        return (true, s)
    | none =>
        let (ok, s) ← s.makeRoom now
        if ok then return (true, ← s.insertNew key value expireAtMs now)
        else return (false, s)

/-- Removes the key. An expired one was not there. -/
def erase (s : Store) (key : Bytes) (now : Int64) : Option (Bool × Store) := do
  let (found, s) ← s.lookup key now
  match found with
  | none => return (false, s)
  | some p => return (true, { s with table := ← s.table.remove p })

/-- Sets the deadline of a key. One that has passed deletes it. -/
def setExpireAt (s : Store) (key : Bytes) (expireAtMs now : Int64) : Option (Bool × Store) := do
  let (found, s) ← s.lookup key now
  match found with
  | none => return (false, s)
  | some p =>
      if expireAtMs < now then
        -- past deadline
        return (true, { s with table := ← s.table.remove p })
      else
        let s ← s.modify p fun e => { e with lruClock := clock32 now, expiresAtMs := expireAtMs }
        return (true, s)

/-- `-2` when the key is absent, `-1` when it has no TTL, else the remaining milliseconds. -/
def ttlMs (s : Store) (key : Bytes) (now : Int64) : Option (Int64 × Store) := do
  let (found, s) ← s.lookup key now
  match found with
  | none => return (-2, s)
  | some p =>
      let e ← s.table.mem p
      if e.expiresAtMs = kNoExpiry then return (kNoExpiry, s)
      -- The entry is live, so the difference is not negative.
      else return (e.expiresAtMs - now, s)

/-! ### The expire cycle -/

/-- What the visitor counts in one pass. -/
structure PassCount where
  sampled : Nat
  expired : Nat
deriving DecidableEq, Repr

/-- The visitor of the scan: it counts every entry, and removes those that have expired. -/
def expireVisitor (now : Int64) (p : Ptr) (s : Table × PassCount) :
    Option (Table × PassCount) := do
  let e ← s.1.mem p
  let c := { s.2 with sampled := s.2.sampled + 1 }
  if e.expired now then return (← s.1.remove p, { c with expired := c.expired + 1 })
  else return (s.1, c)

/-- One pass of the cycle, with `buckets` of its bucket quota left. The flag says that the
cursor wrapped. -/
def expirePass (now : Int64) (sampleLimit : Nat) :
    (buckets : Nat) → Table → (cursor : Nat) → PassCount →
      Option (Table × Nat × PassCount × Bool)
  | 0, t, cursor, c => some (t, cursor, c, false)
  | buckets + 1, t, cursor, c =>
      if c.sampled < sampleLimit then do
        let (cursor, t, c) ← t.scanBucket cursor (expireVisitor now) c
        -- the cursor has wrapped: no entry is left to scan in this round of the table
        if cursor = 0 then return (t, cursor, c, true)
        else expirePass now sampleLimit buckets t cursor c
      else some (t, cursor, c, false)

/-- The pass loop, with `left` passes allowed. -/
def expireLoop (now : Int64) (sampleLimit maxBuckets : Nat) :
    (left : Nat) → Store → ExpireCycleResult → Option (ExpireCycleResult × Store)
  | 0, s, r => some (r, s)
  | left + 1, s, r => do
      let (table, expireCursor, c, wrapped) ←
        expirePass now sampleLimit maxBuckets s.table s.expireCursor ⟨0, 0⟩
      let s := { s with table, expireCursor, expiredKeys := s.expiredKeys + c.expired }
      let r := { reaped := r.reaped + c.expired, passes := r.passes + 1 }
      -- few of the sampled entries had expired: not worth another pass
      if wrapped ∨ c.expired * 10 ≤ c.sampled then return (r, s)
      else expireLoop now sampleLimit maxBuckets left s r

/-- The bucket quota of a pass is `sampleLimit * 20`, in `size_t`. -/
def activeExpireCycle (s : Store) (now : Int64) (sampleLimit : Nat) :
    Option (ExpireCycleResult × Store) :=
  expireLoop now sampleLimit (sampleLimit * 20 % 2 ^ 64) kMaxPasses s ⟨0, 0⟩

/-- Removes everything. The counters stay, and the scan begins anew. -/
def clear (s : Store) : Option Store := do
  return { s with table := ← s.table.clear, expireCursor := 0 }

end Store

end TinyRedis

import TinyRedis.Proofs.Store.Keyed

/-!
# `TinyRedis.Proofs.Store.Ops`: the calls a client of the store makes

`Store.Op` is one call into the store with its arguments, `Reply` what the caller sees of it, and
`Op.run` the call. The pointer that `find` returns is seen through the value behind it. `Call` adds
the expire cycle, which the server runs between the calls of its clients.

* `Op.Fits`: the lengths of a new pair add up in `uint32_t`. The other calls ask for nothing.
* `Op.now?`, `Op.setKey?`: the time of a call, and the key that it may add.
* `new_spec`, `new_isSome`: the store that a configuration gives, and when it gives one.
* `exists_run`: a run of fixed calls is computed, and what it comes to is checked.

A cap of zero stands for the whole pool (`resolveMaxKeys`). A configuration with more buckets than
`2 ^ 63` has no table: the next power of two is out of range.
-/

set_option autoImplicit false

namespace TinyRedis

/-- What a caller sees of a call. -/
inductive Reply where
  | value (v : Option Bytes)
  | bool (b : Bool)
  | ttl (ms : Int)
  | size (n : Nat)
  | done
deriving DecidableEq, Repr

variable [EntryPool]

namespace Store

/-- A call into the store. -/
inductive Op where
  | find (key : Bytes) (now : Int64) (touch : Bool)
  | set (key value : Bytes) (expireAtMs now : Int64)
  | erase (key : Bytes) (now : Int64)
  | setExpireAt (key : Bytes) (expireAtMs now : Int64)
  | ttlMs (key : Bytes) (now : Int64)
  | clear
  | size
deriving DecidableEq, Repr

/-- The call. -/
def Op.run (s : Store) : Op → Option (Reply × Store)
  | .find key now touch => do
      let (found, s) ← s.find key now touch
      return (.value (← s.read found), s)
  | .set key value expireAtMs now => do
      let (b, s) ← s.set key value expireAtMs now
      return (.bool b, s)
  | .erase key now => do
      let (b, s) ← s.erase key now
      return (.bool b, s)
  | .setExpireAt key expireAtMs now => do
      let (b, s) ← s.setExpireAt key expireAtMs now
      return (.bool b, s)
  | .ttlMs key now => do
      let (ms, s) ← s.ttlMs key now
      return (.ttl ms.toInt, s)
  | .clear => do return (.done, ← s.clear)
  | .size => some (.size s.size, s)

/-- The time of a call, where it has one. -/
def Op.now? : Op → Option Int64
  | .find _ now _ | .set _ _ _ now | .erase _ now | .setExpireAt _ _ now | .ttlMs _ now => some now
  | .clear | .size => none

/-- A condition on the time of a call is decided at that time, not over all of `Int64`. -/
instance (op : Op) (p : Int64 → Prop) [DecidablePred p] : Decidable (∀ now ∈ op.now?, p now) :=
  Option.decidableForallMem _

/-- The key that the call may add. -/
def Op.setKey? : Op → Option Bytes
  | .set key _ _ _ => some key
  | _ => none

/-- The key and the value of a `set` add up in `uint32_t`. -/
def Op.Fits : Op → Prop
  | .set key value _ _ => key.length + value.length < 2 ^ 32
  | _ => True

/-- Whether a call fits can be checked. -/
instance : DecidablePred Op.Fits
  | .set _ _ _ _ => inferInstanceAs (Decidable (_ < _))
  | .find _ _ _ | .erase _ _ | .setExpireAt _ _ _ | .ttlMs _ _ | .clear | .size =>
      inferInstanceAs (Decidable True)

/-- A call into the store, or an expire cycle. -/
inductive Call where
  | client (op : Op)
  | activeExpireCycle (now : Int64) (sampleLimit : Nat)
deriving DecidableEq, Repr

/-- The store after the call. -/
def Call.run (s : Store) : Call → Option Store
  | .client op => do return (← op.run s).2
  | .activeExpireCycle now sampleLimit => do return (← s.activeExpireCycle now sampleLimit).2

/-- A run from a new store that has been evaluated. What can be decided of its ends holds there. -/
theorem exists_run (cfg : Config) (rd : UInt64) (calls : List Call) (P : Store → Store → Bool)
    (h : ((Store.new cfg rd).any fun s₀ => (calls.foldlM Call.run s₀).any (P s₀)) = true) :
    ∃ s₀ s, Store.new cfg rd = some s₀ ∧ calls.foldlM Call.run s₀ = some s ∧ P s₀ s = true := by
  obtain ⟨s₀, hnew, hrest⟩ := (Option.any_eq_true _ _).mp h
  obtain ⟨s, hrun, hs⟩ := (Option.any_eq_true _ _).mp hrest
  exact ⟨s₀, s, hnew, hrun, hs⟩

/-- The cap of a store lies between one and the pool. -/
theorem resolveMaxKeys_bounds {maxKeys : Nat} (h : maxKeys ≤ kPoolCapacity) :
    0 < resolveMaxKeys maxKeys ∧ resolveMaxKeys maxKeys ≤ kPoolCapacity := by
  have hpos := EntryPool.capacity_pos
  unfold resolveMaxKeys
  split <;> omega

/-- A new store is empty, with the configured cap, and presized for it. -/
theorem new_spec {cfg : Config} {rd : UInt64} {s : Store} (h : Store.new cfg rd = some s) :
    s.table.Inv ∧ s.view = (fun _ => none) ∧ s.size = 0 ∧ s.policy = cfg.policy ∧
      s.maxKeys = resolveMaxKeys cfg.maxKeys ∧ s.lruSamples = cfg.lruSamples ∧
      (cfg.maxKeys ≠ 0 → cfg.maxKeys ≤ s.bucketCount) := by
  simp only [Store.new, Option.bind_eq_bind, Option.bind_eq_some_iff, Option.pure_def] at h
  obtain ⟨t, ht, h⟩ := h
  cases h
  obtain ⟨hinv, hcont, hsize, -, hle, -⟩ := Table.new_spec ht
  refine ⟨hinv, Table.view_empty hinv.toBase hcont, hsize, rfl, rfl, rfl, fun hz => ?_⟩
  rw [if_neg hz] at hle
  exact Nat.le_trans (Nat.le_max_right _ _) hle

/-- A store whose table fits the address space can be built, whatever its cap. -/
theorem new_isSome_of_le {cfg : Config} (rd : UInt64) (hb : cfg.initialBuckets ≤ 2 ^ 63)
    (hm : cfg.maxKeys ≤ 2 ^ 63) : ∃ s, Store.new cfg rd = some s := by
  have hbuckets : (if cfg.maxKeys = 0 then cfg.initialBuckets
      else max cfg.initialBuckets cfg.maxKeys) ≤ 2 ^ 63 := by
    split
    · exact hb
    · omega
  obtain ⟨n, hn⟩ := Table.nextPow2_isSome hbuckets
  exact ⟨_, by simp only [Store.new, Table.new, hn, Option.bind_eq_bind, Option.bind_some]; rfl⟩

/-- A cap within the pool leaves the table small enough. -/
theorem new_isSome {cfg : Config} (rd : UInt64) (hb : cfg.initialBuckets ≤ 2 ^ 63)
    (hm : cfg.maxKeys ≤ kPoolCapacity) : ∃ s, Store.new cfg rd = some s := by
  have hcap := EntryPool.capacity_le
  exact new_isSome_of_le rd hb (by omega)

/-- A call whose dictionary has no new key does not add entries. -/
theorem Leaves.size_le {s s' : Store} {v : Dict} {n : Nat} (h : Leaves s s' v n)
    (hinv : s.table.Inv) (hsub : ∀ k, (v k).isSome → (s.view k).isSome) : s'.size ≤ s.size := by
  rw [size, size, ← Table.card_keys h.table.inv.toBase, ← Table.card_keys hinv.toBase]
  refine Finset.card_le_card fun k hk => ?_
  rw [Table.mem_keys h.table.inv.toBase, h.table.view] at hk
  rw [Table.mem_keys hinv.toBase]
  exact hsub k hk

/-- `find` as a caller sees it. -/
theorem run_find {s : Store} (h : s.table.Inv) (key : Bytes) (now : Int64) (touch : Bool) :
    ∃ s', (Op.find key now touch).run s
        = some (.value ((s.view.live key now).map Item.value), s') ∧
      Leaves s s' (if touch then (s.view.purge key now).touch key now
        else s.view.purge key now) (s.view.reaped key now) := by
  obtain ⟨r, s', hfind, hleaves, hr⟩ := find_spec h key now touch
  refine ⟨s', ?_, hleaves⟩
  -- A touch changes the clock and not the value.
  have hvalue : (s'.view key).map Item.value = (s.view.live key now).map Item.value := by
    rw [view, hleaves.table.view]
    cases touch <;> simp [Dict.touch, Function.comp_def]
  simp [Op.run, hfind, read_spec hleaves.table.inv hr, hvalue]

end Store

end TinyRedis

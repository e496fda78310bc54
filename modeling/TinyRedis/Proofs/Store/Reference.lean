import Mathlib.Data.Finmap
import TinyRedis.Core.Resp
import TinyRedis.Lib.Run
import TinyRedis.Proofs.Store.Ops

/-!
# `TinyRedis.Proofs.Store.Reference`: the store is a finite map

`RefMap` is what the store is for without eviction: a finite map from keys to a value and an
optional deadline, over the integers. `RefMap.step` says what each call does to it and answers.

`run_eq_reference` shows that the store answers every run of calls as this map does, for every seed,
table size and cap. The proof is a forward simulation: `Abs` relates the dictionary of the store to
the map, each dictionary update keeps it, and the specifications of `TinyRedis.Proofs.Store.Keyed`
say which updates the calls make.

* `Expiry`: what a `set` says about the deadline: none, a time, or the one that is there.
* `RefMap.purge`, `set`, `setExpireAt`, `ttl`, `step`: the map.
* `Abs.insert`, `erase`, `touch`, `purge`: the updates of the dictionary, on both sides.
* `Sim`: the store stands for the map, keeps its invariant, and refuses when it is full.
* `Sim.set`, `Sim.setExpireAt`, `Sim.ttl_eq`, `Sim.step`: the calls.

The map has no clock of uses, no hash and no counters, and it forgets an item only when a call meets
it after its deadline. That the store forgets others too, in its expire cycles, is not a difference
that a client can see (`TinyRedis.Proofs.Store.Quiet`), except by the count of the keys; the runs
here have no cycles in them.
-/

set_option autoImplicit false

namespace TinyRedis

open Lib

/-- What `set` is told about the deadline. -/
inductive Expiry where
  | keep
  | drop
  | deadline (d : Int)
deriving DecidableEq, Repr

namespace Expiry

/-- The reading of the `expireAtMs` argument, sentinels first. -/
def ofMs (ms : Int64) : Expiry :=
  if ms = kNoExpiry then .drop else if ms = kKeepTtl then .keep else .deadline ms.toInt

/-- An explicit deadline that has passed. -/
def past (now : Int) : Expiry → Bool
  | .deadline d => d < now
  | _ => false

/-- The new deadline of a key whose deadline was `old`. -/
def apply (old : Option Int) : Expiry → Option Int
  | .keep => old
  | .drop => none
  | .deadline d => some d

end Expiry

/-- The reference model: a finite map from keys to a value and an optional deadline. -/
abbrev RefMap := Finmap fun _ : Bytes => Bytes × Option Int

namespace RefMap

/-- Deletes the key if its deadline has passed. -/
def purge (m : RefMap) (key : Bytes) (now : Int) : RefMap :=
  match m.lookup key with
  | some (_, some d) => if d < now then m.erase key else m
  | _ => m

/-- A deadline that is over deletes the key. A new key is refused when the map is full. -/
def set (maxKeys : Nat) (m : RefMap) (key value : Bytes) (e : Expiry) (now : Int) :
    Bool × RefMap :=
  let m := m.purge key now
  if e.past now then (true, m.erase key)
  else
    match m.lookup key with
    | some (_, old) => (true, m.insert key (value, e.apply old))
    | none =>
        if m.keys.card = maxKeys then (false, m) else (true, m.insert key (value, e.apply none))

/-- A live item gets the deadline, or is deleted when it is over. -/
def setExpireAt (m : RefMap) (key : Bytes) (d now : Int) : Bool × RefMap :=
  let m := m.purge key now
  match m.lookup key with
  | none => (false, m)
  | some (value, _) => (true, if d < now then m.erase key else m.insert key (value, some d))

/-- `-2` for an absent key, `-1` for a key without a deadline, else the time left. -/
def ttl (m : RefMap) (key : Bytes) (now : Int) : Int :=
  match m.lookup key with
  | none => -2
  | some (_, none) => -1
  | some (_, some d) => d - now

/-- The reply and the map after a call. -/
def step (maxKeys : Nat) (m : RefMap) : Store.Op → Reply × RefMap
  | .find key now _ =>
      let m := m.purge key now.toInt
      (.value ((m.lookup key).map Prod.fst), m)
  | .set key value expireAtMs now =>
      let r := m.set maxKeys key value (.ofMs expireAtMs) now.toInt
      (.bool r.1, r.2)
  | .erase key now =>
      let m := m.purge key now.toInt
      (.bool (m.lookup key).isSome, m.erase key)
  | .setExpireAt key expireAtMs now =>
      let r := m.setExpireAt key expireAtMs.toInt now.toInt
      (.bool r.1, r.2)
  | .ttlMs key now =>
      let m := m.purge key now.toInt
      (.ttl (m.ttl key now.toInt), m)
  | .clear => (.done, ∅)
  | .size => (.size m.keys.card, m)

end RefMap

namespace Item

/-- The deadline of an item, if it has one. -/
def deadline (it : Item) : Option Int :=
  if it.expiresAtMs = kNoExpiry then none else some it.expiresAtMs.toInt

/-- What the reference keeps of an item. -/
def ref (it : Item) : Bytes × Option Int := (it.value, it.deadline)

/-- An item without a deadline never expires. -/
theorem expired_of_deadline_none {it : Item} (h : it.deadline = none) (now : Int64) :
    it.expired now = false := by
  unfold deadline at h
  split at h
  · next hno => simp [expired, hno]
  · cases h

/-- An item with one expires after it. -/
theorem expired_of_deadline_some {it : Item} {d : Int} (h : it.deadline = some d) (now : Int64) :
    it.expired now = decide (d < now.toInt) := by
  unfold deadline at h
  split at h
  · cases h
  · next hno =>
    cases h
    simp [expired, hno, Int64.lt_iff_toInt_lt]

/-- A live deadline and a time that is not negative do not overflow in the subtraction. -/
theorem toInt_ttl {it : Item} {now : Int64} (hnow : 0 ≤ now) (hlive : it.expired now = false)
    (hno : it.expiresAtMs ≠ kNoExpiry) :
    (it.expiresAtMs - now).toInt = it.expiresAtMs.toInt - now.toInt := by
  have hle : now.toInt ≤ it.expiresAtMs.toInt := by
    rw [expired, if_neg hno, decide_eq_false_iff_not, gt_iff_lt, Int64.lt_iff_toInt_lt] at hlive
    omega
  have hnow' : 0 ≤ now.toInt := Int64.le_iff_toInt_le.mp hnow
  have hmax := it.expiresAtMs.toInt_lt
  rw [Int64.toInt_sub, Int.bmod_eq_of_le] <;> omega

end Item

/-- `set` writes the deadline the reference writes. -/
theorem Dict.ref_written (found : Option Item) (value : Bytes) (expireAtMs now : Int64) :
    (Dict.written found value expireAtMs now).ref
      = (value, (Expiry.ofMs expireAtMs).apply (found.bind Item.deadline)) := by
  have hne : kKeepTtl ≠ kNoExpiry := by decide
  by_cases hkeep : expireAtMs = kKeepTtl
  · subst hkeep
    cases found <;> simp [Dict.written, Item.ref, Item.deadline, Expiry.ofMs, Expiry.apply, hne]
  · by_cases hno : expireAtMs = kNoExpiry
    · simp [Dict.written, Item.ref, Item.deadline, Expiry.ofMs, Expiry.apply, hno, hne.symm]
    · simp [Dict.written, Item.ref, Item.deadline, Expiry.ofMs, Expiry.apply, hno, hkeep]

/-- A deadline is over on both sides, or on neither. -/
theorem Expiry.past_ofMs (expireAtMs now : Int64) :
    (Expiry.ofMs expireAtMs).past now.toInt = decide (Store.Past expireAtMs now) := by
  unfold Expiry.ofMs Store.Past
  split
  · simp_all [Expiry.past]
  · split
    · simp_all [Expiry.past]
    · simp_all [Expiry.past, Int64.lt_iff_toInt_lt]

/-! ### The abstraction -/

/-- The map holds what the reference keeps of the dictionary. -/
def Abs (v : Dict) (m : RefMap) : Prop := ∀ k, m.lookup k = (v k).map Item.ref

namespace Abs

variable {v : Dict} {m : RefMap}

/-- An item is stored under a key. -/
theorem insert (h : Abs v m) (key : Bytes) (it : Item) :
    Abs (Function.update v key (some it)) (m.insert key it.ref) := by
  intro k
  by_cases hk : k = key
  · subst hk
    simp
  · rw [Finmap.lookup_insert_of_ne _ hk, Function.update_of_ne hk, h k]

/-- A key is erased. -/
theorem erase (h : Abs v m) (key : Bytes) : Abs (v.erase key) (m.erase key) := by
  intro k
  by_cases hk : k = key
  · subst hk
    simp [Dict.erase]
  · rw [Finmap.lookup_erase_ne hk, Dict.erase, Function.update_of_ne hk, h k]

/-- The reference does not see the clocks. -/
theorem touch (h : Abs v m) (key : Bytes) (now : Int64) : Abs (v.touch key now) m := by
  intro k
  rw [h k]
  by_cases hk : k = key
  · subst hk
    rw [Dict.touch, Function.update_self, Option.map_map]
    rfl
  · rw [Dict.touch, Function.update_of_ne hk]

/-- A key is purged. -/
theorem purge (h : Abs v m) (key : Bytes) (now : Int64) :
    Abs (v.purge key now) (m.purge key now.toInt) := by
  -- A purge keeps the key or erases it, on both sides together.
  have keep (hl : v.live key now = v key) (hm : m.purge key now.toInt = m) :
      Abs (v.purge key now) (m.purge key now.toInt) := by
    rw [hm, Dict.purge_of_live hl]
    exact h
  cases hv : v key with
  | none =>
    refine keep (by rw [Dict.live_eq_none_of_none hv, hv]) ?_
    simp [RefMap.purge, h key, hv]
  | some it =>
    have hlook : m.lookup key = some (it.value, it.deadline) := by rw [h key, hv]; rfl
    cases hd : it.deadline with
    | none =>
      refine keep (by rw [Dict.live_of_not_expired hv (it.expired_of_deadline_none hd now), hv]) ?_
      simp [RefMap.purge, hlook, hd]
    | some d =>
      have hx := it.expired_of_deadline_some hd now
      by_cases hlt : d < now.toInt
      · have hm : m.purge key now.toInt = m.erase key := by
          simp [RefMap.purge, hlook, hd, hlt]
        rw [hm, Dict.purge_eq_erase (Dict.live_of_expired hv (by simp [hx, hlt]))]
        exact h.erase key
      · refine keep (by rw [Dict.live_of_not_expired hv (by simp [hx, hlt]), hv]) ?_
        simp [RefMap.purge, hlook, hd, hlt]

/-- The purged map holds the live item. -/
theorem lookup_purge (h : Abs v m) (key : Bytes) (now : Int64) :
    (m.purge key now.toInt).lookup key = (v.live key now).map Item.ref := by
  rw [h.purge key now key, Dict.purge_self]

/-- A purge before an erasure makes no difference. -/
theorem erase_purge (key : Bytes) (now : Int) : (m.purge key now).erase key = m.erase key := by
  refine Finmap.ext_lookup fun k => ?_
  unfold RefMap.purge
  split
  · split
    · by_cases hk : k = key
      · subst hk
        simp
      · simp [hk]
    · rfl
  · rfl

variable [EntryPool]

/-- The map has as many keys as the store. -/
theorem card_keys {s : Store} (hinv : s.table.Inv) (h : Abs s.view m) : m.keys.card = s.size := by
  have hkeys : m.keys = s.table.keys := by
    ext k
    rw [Finmap.mem_keys, ← Finmap.lookup_isSome, h k, Table.mem_keys hinv.toBase,
      Option.isSome_map]
    rfl
  rw [hkeys, Table.card_keys hinv.toBase]
  rfl

end Abs

namespace RefMap

variable {m : RefMap} {key : Bytes}

/-- A purge adds no key. -/
theorem keys_purge_subset (m : RefMap) (key : Bytes) (now : Int) :
    (m.purge key now).keys ⊆ m.keys := by
  unfold purge
  split
  · split
    · rw [Finmap.keys_erase]
      exact Finset.erase_subset _ _
    · exact Finset.Subset.refl _
  · exact Finset.Subset.refl _

/-- An erasure leaves no more keys than there were. -/
theorem card_erase_le (m : RefMap) (key : Bytes) : (m.erase key).keys.card ≤ m.keys.card := by
  rw [Finmap.keys_erase]
  exact Finset.card_erase_le

/-- An insertion adds its key. -/
theorem keys_insert (m : RefMap) (key : Bytes) (b : Bytes × Option Int) :
    (Finmap.insert key b m).keys = Insert.insert key m.keys := by
  ext k
  simp [Finmap.mem_keys]

/-- Overwriting a key keeps the number of keys. -/
theorem card_insert_of_mem {b : Bytes × Option Int} (h : key ∈ m) :
    (Finmap.insert key b m).keys.card = m.keys.card := by
  rw [keys_insert, Finset.insert_eq_of_mem (Finmap.mem_keys.mpr h)]

/-- An insertion leaves one key more at most. -/
theorem card_insert_le (m : RefMap) (key : Bytes) (b : Bytes × Option Int) :
    (Finmap.insert key b m).keys.card ≤ m.keys.card + 1 := by
  rw [keys_insert]
  exact Finset.card_insert_le _ _

end RefMap

/-! ### The simulation -/

namespace Store

variable [EntryPool]

/-- The store `s` stands for the map `m`, at a cap of `maxKeys` keys and without eviction. -/
structure Sim (maxKeys : Nat) (s : Store) (m : RefMap) : Prop where
  inv : s.table.Inv
  policy : s.policy = .kNoEviction
  maxKeys_eq : s.maxKeys = maxKeys
  maxKeys_le : maxKeys ≤ kPoolCapacity
  abs : Abs s.view m
  card_le : m.keys.card ≤ maxKeys

namespace Sim

variable {maxKeys : Nat} {s s' : Store} {m m' : RefMap}

/-- A call that leaves a dictionary of the map `m'`. -/
theorem leaves {v : Dict} {n : Nat} (h : Sim maxKeys s m) (hs : Leaves s s' v n) (habs : Abs v m')
    (hcard : m'.keys.card ≤ maxKeys) : Sim maxKeys s' m' where
  inv := hs.table.inv
  policy := by rw [hs.rest]; exact h.policy
  maxKeys_eq := by rw [hs.rest]; exact h.maxKeys_eq
  maxKeys_le := h.maxKeys_le
  abs := by rw [view, hs.table.view]; exact habs
  card_le := hcard

/-- The map is within the cap after a purge. -/
theorem card_purge_le (h : Sim maxKeys s m) (key : Bytes) (now : Int) :
    (m.purge key now).keys.card ≤ maxKeys :=
  Nat.le_trans (Finset.card_le_card (m.keys_purge_subset key now)) h.card_le

/-- The map is within the cap after an erasure. -/
theorem card_erase_le (h : Sim maxKeys s m) (key : Bytes) : (m.erase key).keys.card ≤ maxKeys :=
  Nat.le_trans (m.card_erase_le key) h.card_le

/-- The cap is met in the store exactly when it is met in the map. -/
theorem makeRoom_eq (h : Sim maxKeys s m) (now : Int64) :
    s.makeRoom now = some (decide (m.keys.card ≠ maxKeys), s) := by
  have hcard := h.abs.card_keys h.inv
  have hle := h.card_le
  rw [makeRoom, h.maxKeys_eq, ← hcard]
  by_cases hfull : m.keys.card = maxKeys
  · rw [if_pos (by omega), h.policy]
    simp [hfull]
  · rw [if_neg (by omega)]
    simp [hfull]

/-- `set` on an absent key, from the store that its lookup leaves. -/
theorem set_absent (h : Sim maxKeys s m) {key value : Bytes} (expireAtMs now : Int64)
    (hfit : key.length + value.length < 2 ^ 32) (habsent : m.lookup key = none) :
    ∃ s', (do
        let (ok, s₂) ← s.makeRoom now
        if ok then return (true, ← s₂.insertNew key value expireAtMs now)
        else return (false, s₂)) = some (decide (m.keys.card ≠ maxKeys), s') ∧
      Sim maxKeys s' (if m.keys.card = maxKeys then m
        else Finmap.insert key (value, (Expiry.ofMs expireAtMs).apply none) m) := by
  have hcard := h.abs.card_keys h.inv
  by_cases hfull : m.keys.card = maxKeys
  · exact ⟨s, by simp [h.makeRoom_eq, hfull], by rw [if_pos hfull]; exact h⟩
  · have hview : s.view key = none := by
      have := h.abs key
      rw [habsent] at this
      exact Option.map_eq_none_iff.mp this.symm
    have hlt : m.keys.card < maxKeys := Nat.lt_of_le_of_ne h.card_le hfull
    obtain ⟨t', hins, hinv', hview', -⟩ := insertNew_spec h.inv expireAtMs now hfit hview
      (by have := h.maxKeys_le; omega)
    refine ⟨{ s with table := t' }, by simp [h.makeRoom_eq, hfull, hins], ?_⟩
    rw [if_neg hfull]
    refine ⟨hinv', h.policy, h.maxKeys_eq, h.maxKeys_le, ?_, ?_⟩
    · have habs := h.abs.insert key (Dict.written none value expireAtMs now)
      rw [Dict.ref_written] at habs
      rw [← hview'] at habs
      exact habs
    · have := m.card_insert_le key (value, (Expiry.ofMs expireAtMs).apply none)
      omega

/-- `set` and its reference. -/
theorem set (h : Sim maxKeys s m) {key value : Bytes} (expireAtMs now : Int64)
    (hfit : key.length + value.length < 2 ^ 32) :
    ∃ s', s.set key value expireAtMs now
        = some ((m.set maxKeys key value (.ofMs expireAtMs) now.toInt).1, s') ∧
      Sim maxKeys s' (m.set maxKeys key value (.ofMs expireAtMs) now.toInt).2 := by
  have hpast := Expiry.past_ofMs expireAtMs now
  have hlook : (m.purge key now.toInt).lookup key = _ := h.abs.lookup_purge key now
  by_cases hp : Past expireAtMs now
  · -- A deadline that has passed erases the key on both sides.
    obtain ⟨s', hset, hleaves⟩ := set_past h.inv key value hp
    refine ⟨s', by simp [RefMap.set, hpast, hp, hset], ?_⟩
    simp only [RefMap.set, hpast, hp, decide_true, if_true, Abs.erase_purge]
    exact h.leaves hleaves (h.abs.erase key) (h.card_erase_le key)
  · cases hlive : s.view.live key now with
    | some it =>
      obtain ⟨s', hset, hleaves⟩ := set_present h.inv hfit hp hlive
      rw [hlive, Option.map_some] at hlook
      refine ⟨s', by simp [RefMap.set, hpast, hp, hset, hlook, Item.ref], ?_⟩
      simp only [RefMap.set, hpast, hp, decide_false, Bool.false_eq_true, if_false, hlook,
        Item.ref]
      refine h.leaves hleaves ?_ ?_
      · rw [← Dict.update_purge now]
        have habs := (h.abs.purge key now).insert key
          (Dict.written (some it) value expireAtMs now)
        rw [Dict.ref_written] at habs
        exact habs
      · rw [RefMap.card_insert_of_mem (Finmap.mem_iff.mpr ⟨_, hlook⟩)]
        exact h.card_purge_le key _
    | none =>
      -- An absent key needs room, on both sides after the same purge.
      obtain ⟨r, s₁, hlookup, hL⟩ := lookup_spec h.inv key now
      obtain rfl := hL.eq_none hlive
      rw [hlive, Option.map_none] at hlook
      have h₁ := h.leaves hL.toLeaves (h.abs.purge key now) (h.card_purge_le key _)
      obtain ⟨s', hset, hsim⟩ := h₁.set_absent expireAtMs now hfit hlook
      rw [Store.set_absent hlookup hp]
      refine ⟨s', ?_, ?_⟩
      · rw [hset]
        simp only [RefMap.set, hpast, hp, decide_false, Bool.false_eq_true, if_false, hlook]
        split <;> simp_all
      · simp only [RefMap.set, hpast, hp, decide_false, Bool.false_eq_true, if_false, hlook]
        split <;> simp_all

/-- `setExpireAt` and its reference. -/
theorem setExpireAt (h : Sim maxKeys s m) (key : Bytes) (expireAtMs : Int64) {now : Int64}
    (hnow : 0 ≤ now) :
    ∃ s', s.setExpireAt key expireAtMs now
        = some ((m.setExpireAt key expireAtMs.toInt now.toInt).1, s') ∧
      Sim maxKeys s' (m.setExpireAt key expireAtMs.toInt now.toInt).2 := by
  obtain ⟨s', hset, hleaves⟩ := setExpireAt_spec h.inv key expireAtMs now
  have hlook := h.abs.lookup_purge key now
  have hlt_iff : expireAtMs < now ↔ expireAtMs.toInt < now.toInt := Int64.lt_iff_toInt_lt
  cases hlive : s.view.live key now with
  | none =>
    rw [hlive, Option.map_none] at hlook
    refine ⟨s', by simp [RefMap.setExpireAt, hset, hlook, hlive], ?_⟩
    simp only [RefMap.setExpireAt, hlook]
    -- Nothing to give a deadline to: both branches leave the purged dictionary.
    have hpurge := Dict.purge_eq_erase hlive
    have habs := h.abs.purge key now
    rw [hpurge] at habs
    simp only [hlive, Option.map_none,
      show Function.update s.view key none = s.view.erase key from rfl, ite_self] at hleaves
    exact h.leaves hleaves habs (h.card_purge_le key _)
  | some it =>
    rw [hlive, Option.map_some] at hlook
    refine ⟨s', by simp [RefMap.setExpireAt, hset, hlook, hlive, Item.ref], ?_⟩
    simp only [RefMap.setExpireAt, hlook, Item.ref, Abs.erase_purge]
    by_cases hlt : expireAtMs < now
    · rw [if_pos (hlt_iff.mp hlt)]
      rw [if_pos hlt] at hleaves
      exact h.leaves hleaves (h.abs.erase key) (h.card_erase_le key)
    · rw [if_neg (fun hc => hlt (hlt_iff.mpr hc))]
      rw [if_neg hlt, hlive, Option.map_some, ← Dict.update_purge now] at hleaves
      refine h.leaves hleaves ?_ ?_
      · have habs := (h.abs.purge key now).insert key
          { it with expiresAtMs := expireAtMs, lruClock := clock32 now }
        -- A deadline at or after `now` is not the sentinel.
        have hno : expireAtMs ≠ kNoExpiry := by
          rintro rfl
          exact hlt (Int64.lt_of_lt_of_le (by decide) hnow)
        simpa only [Item.ref, Item.deadline, if_neg hno] using habs
      · rw [RefMap.card_insert_of_mem (Finmap.mem_iff.mpr ⟨_, hlook⟩)]
        exact h.card_purge_le key _

/-- `ttlMs` answers as the reference does. -/
theorem ttl_eq (h : Sim maxKeys s m) (key : Bytes) {now : Int64} (hnow : 0 ≤ now) :
    (ttlOf (s.view.live key now) now).toInt
      = (m.purge key now.toInt).ttl key now.toInt := by
  rw [RefMap.ttl, h.abs.lookup_purge key now]
  cases hlive : s.view.live key now with
  | none => simp [ttlOf]
  | some it =>
    have hfresh : it.expired now = false := by
      have := Option.filter_eq_some_iff.mp hlive
      simpa using this.2
    by_cases hno : it.expiresAtMs = kNoExpiry
    · simp [ttlOf, hno, Item.ref, Item.deadline]
      rfl
    · simp only [ttlOf, if_neg hno, Option.map_some, Item.ref, Item.deadline,
        Item.toInt_ttl hnow hfresh hno]

end Sim

/-- What callers promise: times are not negative, and the parser bounds keys and values. -/
def Op.Ok (op : Op) : Prop :=
  (∀ now ∈ op.now?, 0 ≤ now) ∧
    match op with
    | .set key value _ _ => key.length ≤ kMaxBulkLength ∧ value.length ≤ kMaxBulkLength
    | _ => True

/-- Whether a call is one that the map can answer can be checked. -/
instance : DecidablePred Op.Ok
  | .set _ _ _ _ => inferInstanceAs (Decidable (_ ∧ _ ∧ _))
  | .find _ _ _ | .erase _ _ | .setExpireAt _ _ _ | .ttlMs _ _ | .clear | .size =>
      inferInstanceAs (Decidable (_ ∧ True))

/-- The step lemma: a call answers as the reference does, and the store stands for the new
map. -/
theorem Sim.step {maxKeys : Nat} {s : Store} {m : RefMap} (h : Sim maxKeys s m) {op : Op}
    (hok : op.Ok) :
    ∃ s', op.run s = some ((m.step maxKeys op).1, s') ∧ Sim maxKeys s' (m.step maxKeys op).2 := by
  cases op with
  | find key now touch =>
    obtain ⟨s', hrun, hleaves⟩ := run_find h.inv key now touch
    refine ⟨s', ?_, h.leaves hleaves ?_ (h.card_purge_le key _)⟩
    · rw [hrun, RefMap.step, h.abs.lookup_purge key now, Option.map_map]
      rfl
    · cases touch with
      | true => exact (h.abs.purge key now).touch key now
      | false => exact h.abs.purge key now
  | set key value expireAtMs now =>
    -- Two bulk strings fit in the 32-bit lengths of an entry.
    obtain ⟨hkey, hvalue⟩ := hok.2
    have hfit : key.length + value.length < 2 ^ 32 := by
      simp only [kMaxBulkLength] at hkey hvalue
      omega
    obtain ⟨s', hset, hsim⟩ := h.set expireAtMs now hfit
    exact ⟨s', by simp [Op.run, hset, RefMap.step], hsim⟩
  | erase key now =>
    obtain ⟨s', hrun, hleaves⟩ := erase_spec h.inv key now
    refine ⟨s', ?_, h.leaves hleaves ?_ ?_⟩
    · simp [Op.run, hrun, RefMap.step, h.abs.lookup_purge key now]
    · simp only [RefMap.step, Abs.erase_purge]
      exact h.abs.erase key
    · simp only [RefMap.step, Abs.erase_purge]
      exact h.card_erase_le key
  | setExpireAt key expireAtMs now =>
    obtain ⟨s', hset, hsim⟩ := h.setExpireAt key expireAtMs (hok.1 now rfl)
    exact ⟨s', by simp [Op.run, hset, RefMap.step], hsim⟩
  | ttlMs key now =>
    obtain ⟨s', hrun, hleaves⟩ := ttlMs_spec h.inv key now
    refine ⟨s', ?_, h.leaves hleaves (h.abs.purge key now) (h.card_purge_le key _)⟩
    simp [Op.run, hrun, RefMap.step, h.ttl_eq key (hok.1 now rfl)]
  | clear =>
    obtain ⟨t', hrun, hb⟩ := clear_spec h.inv
    refine ⟨{ s with table := t', expireCursor := 0 }, by simp [Op.run, hrun, RefMap.step],
      ⟨hb.inv, h.policy, h.maxKeys_eq, h.maxKeys_le, fun k => ?_, by simp [RefMap.step]⟩⟩
    simp [RefMap.step, view, hb.view]
  | size =>
    refine ⟨s, ?_, h⟩
    simp [Op.run, RefMap.step, h.abs.card_keys h.inv]

/-- Without eviction, a new store answers every run of calls as the reference map does, for
every seed, every initial bucket count and every cap within the pool. -/
theorem run_eq_reference {cfg : Config} {rd : UInt64} {ops : List Op}
    (hbuckets : cfg.initialBuckets ≤ 2 ^ 63) (hmax : cfg.maxKeys ≤ kPoolCapacity)
    (hpolicy : cfg.policy = .kNoEviction) (hops : ∀ op ∈ ops, op.Ok) :
    ∃ s₀ s, Store.new cfg rd = some s₀ ∧
      outputsM Op.run s₀ ops
        = some ((outputs (RefMap.step (resolveMaxKeys cfg.maxKeys)) ∅ ops).1, s) := by
  obtain ⟨s₀, hnew⟩ := new_isSome rd hbuckets hmax
  obtain ⟨hinv, hview, -, hp, hm, -⟩ := new_spec hnew
  have hcap := (resolveMaxKeys_bounds hmax).2
  have hsim : Sim (resolveMaxKeys cfg.maxKeys) s₀ ∅ :=
    ⟨hinv, hp.trans hpolicy, hm, hcap, fun k => by simp [hview], by simp⟩
  have hstep : ∀ s m (op : Op), Sim (resolveMaxKeys cfg.maxKeys) s m → op.Ok →
      ∃ s', op.run s = some ((RefMap.step (resolveMaxKeys cfg.maxKeys) m op).1, s') ∧
        Sim (resolveMaxKeys cfg.maxKeys) s' (RefMap.step (resolveMaxKeys cfg.maxKeys) m op).2 :=
    fun s m op h hok => h.step hok
  obtain ⟨s, hrun, -⟩ := outputsM_eq_of_sim _ hstep hsim (allowed_of_forall hops ∅)
  exact ⟨s₀, s, hnew, hrun⟩

omit [EntryPool] in
/-- A cap of two keys: the third is refused until the deadline of the first has passed. -/
theorem run_eq_reference_refused : letI := slabPool
    let ops : List Op := [.set [1] [2] 50 10, .set [2] [3] (-1) 20, .set [3] [4] (-1) 30,
      .ttlMs [1] 40, .find [1] 51 true, .set [3] [4] 70 60, .ttlMs [2] 60, .size]
    ∃ s₀ s, Store.new { maxKeys := 2, seed := 7, initialBuckets := 4 } 0 = some s₀ ∧
      outputsM Op.run s₀ ops = some ([.bool true, .bool true, .bool false, .ttl 10, .value none,
        .bool true, .ttl (-1), .size 2], s) := by
  let _ := slabPool
  intro ops
  have href : (outputs (RefMap.step (resolveMaxKeys 2)) ∅ ops).1 = [.bool true, .bool true,
      .bool false, .ttl 10, .value none, .bool true, .ttl (-1), .size 2] := by decide
  rw [← href]
  exact run_eq_reference (by decide) (by decide) rfl (by decide)

end Store

end TinyRedis

import TinyRedis.Proofs.Store.Full
import TinyRedis.Proofs.Store.Reference

/-!
# `TinyRedis.Proofs.Store.Cache`: a store that evicts is a lossy finite map

`RefMap.Step` is the reference map of `TinyRedis.Proofs.Store.Reference` under either policy. It is
the same map, except that a `set` which would be refused may evict instead: it then loses items that
have expired, or one that has not, and stores the new key. Nothing else is ever lost, and nothing
comes back. So a value that a client reads is always the last one written under the key.

Only `makeRoom` looks at the policy. A call that does not come to a full store is thus the same
under both (`Op.run_under`), and the simulation of `TinyRedis.Proofs.Store.Reference` does for it.

* `RefMap.Evicts`: what may be lost when room is made.
* `RefMap.Step`: a call on the map, under a policy.
* `find_under`, `erase_under`, `set_under` and so on: each call does the same under either policy,
  as long as no room has to be made.
* `Stands`: the store stands for the map.
* `Stands.step`, `Stands.cycle`: so it does after a call, and after an expire cycle.

What is evicted is not determined by the map: the store samples, and the map only says what kind of
loss there may be. `TinyRedis.Proofs.Store.Recency` says which key it is.
-/

set_option autoImplicit false

namespace TinyRedis

open Lib

/-! ### The map -/

namespace RefMap

/-- The item under the key has a deadline that has passed. -/
def Expired (m : RefMap) (now : Int) (k : Bytes) : Prop :=
  ∃ v d, m.lookup k = some (v, some d) ∧ d < now

/-- Some items whose deadline has passed are gone, and nothing else. -/
def Swept (m : RefMap) (now : Int) (m' : RefMap) : Prop :=
  ∀ k, m'.lookup k = m.lookup k ∨ m'.lookup k = none ∧ m.Expired now k

/-- Room is made: items that have expired go, or one that has not. -/
inductive Evicts (m : RefMap) (now : Int) : RefMap → Prop where
  | expired {m' : RefMap} (swept : m.Swept now m') (fewer : m'.keys ⊂ m.keys) : Evicts m now m'
  | one {k : Bytes} (mem : k ∈ m) (fresh : ¬ m.Expired now k) : Evicts m now (m.erase k)

namespace Evicts

variable {m m' : RefMap} {now : Int} {gone : Finset Bytes}

/-- Items that have expired are lost, and at least one of them. -/
theorem of_expired (hlookup : ∀ k, m'.lookup k = if k ∈ gone then none else m.lookup k)
    (hgone : gone.Nonempty) (hexpired : ∀ k ∈ gone, m.Expired now k) : m.Evicts now m' := by
  refine .expired (fun k => ?_) ?_
  · rw [hlookup k]
    split
    · next hk => exact Or.inr ⟨rfl, hexpired k hk⟩
    · exact Or.inl rfl
  · obtain ⟨k, hk⟩ := hgone
    obtain ⟨v, d, hlook, -⟩ := hexpired k hk
    refine (Finset.ssubset_iff_of_subset fun k' hk' => ?_).mpr ⟨k, ?_, ?_⟩
    · rw [Finmap.mem_keys, ← Finmap.lookup_isSome] at hk' ⊢
      rw [hlookup k'] at hk'
      split at hk'
      · cases hk'
      · exact hk'
    · rw [Finmap.mem_keys, ← Finmap.lookup_isSome, hlook]
      rfl
    · rw [Finmap.mem_keys, ← Finmap.lookup_eq_none, hlookup k, if_pos hk]

/-- One item is lost that has not expired. -/
theorem of_one {k : Bytes}
    (hlookup : ∀ k', m'.lookup k' = if k' ∈ ({k} : Finset Bytes) then none else m.lookup k')
    (hmem : k ∈ m) (hfresh : ¬ m.Expired now k) : m.Evicts now m' := by
  have heq : m' = m.erase k := by
    refine Finmap.ext_lookup fun k' => ?_
    rw [hlookup k']
    by_cases hk : k' = k
    · subst hk
      simp
    · simp [hk]
  rw [heq]
  exact .one hmem hfresh

end Evicts

/-- The call is a `set` that finds no room. -/
def refuses (maxKeys : Nat) (m : RefMap) : Store.Op → Bool
  | .set key value expireAtMs now => !(m.set maxKeys key value (.ofMs expireAtMs) now.toInt).1
  | _ => false

/-- A call on the map, with its reply and the map after it. -/
inductive Step (policy : EvictionPolicy) (maxKeys : Nat) (m : RefMap) :
    Store.Op → Reply → RefMap → Prop where
  | plain {op : Store.Op} (stays : policy = .kNoEviction ∨ m.refuses maxKeys op = false) :
      Step policy maxKeys m op (m.step maxKeys op).1 (m.step maxKeys op).2
  | evicting {key value : Bytes} {expireAtMs now : Int64} {m' : RefMap}
      (policy_eq : policy = .kAllKeysLru)
      (refused : m.refuses maxKeys (.set key value expireAtMs now) = true)
      (evicts : (m.purge key now.toInt).Evicts now.toInt m') :
      Step policy maxKeys m (.set key value expireAtMs now) (.bool true)
        (m'.insert key (value, (Expiry.ofMs expireAtMs).apply none))

end RefMap

/-- A dictionary with finitely many keys has a map. -/
theorem Abs.exists_of_keys {K : Finset Bytes} :
    ∀ {v : Dict}, (∀ k, (v k).isSome → k ∈ K) → ∃ m, Abs v m := by
  induction K using Finset.induction_on with
  | empty =>
    intro v hv
    refine ⟨∅, fun k => ?_⟩
    cases hk : v k with
    | none => simp
    | some it => exact absurd (hv k (by simp [hk])) (Finset.notMem_empty k)
  | insert key K _ ih =>
    intro v hv
    obtain ⟨m, hm⟩ := ih (v := Function.update v key none) fun k hk => by
      by_cases hkey : k = key
      · simp [hkey] at hk
      · rw [Function.update_of_ne hkey] at hk
        exact Finset.mem_of_mem_insert_of_ne (hv k hk) hkey
    cases hkey : v key with
    | none =>
      rw [← hkey, Function.update_eq_self] at hm
      exact ⟨m, hm⟩
    | some it =>
      have hinsert := hm.insert key it
      rw [Function.update_idem, ← hkey, Function.update_eq_self] at hinsert
      exact ⟨_, hinsert⟩

/-- An item has expired in the dictionary exactly when it has in the map. -/
theorem Abs.expired_iff {v : Dict} {m : RefMap} (h : Abs v m) {now : Int64} {k : Bytes} :
    m.Expired now.toInt k ↔ ∃ it, v k = some it ∧ it.expired now = true := by
  rw [RefMap.Expired, h k]
  cases v k with
  | none => simp
  | some it =>
    cases hd : it.deadline with
    | none => simp [Item.ref, hd, it.expired_of_deadline_none hd now]
    | some d => simp [Item.ref, hd, it.expired_of_deadline_some hd now]

/-! ### Calls under either policy -/

variable [EntryPool]

namespace Store

/-- The store with another policy. -/
def under (s : Store) (policy : EvictionPolicy) : Store := { s with policy }

variable {s s' s₁ : Store} {policy : EvictionPolicy} {key value : Bytes} {now expireAtMs : Int64}

/-- A store under the policy that it has is the store. -/
@[simp] theorem under_self (s : Store) : s.under s.policy = s := rfl

/-- A lookup does not look at the policy. -/
theorem lookup_under : (s.under policy).lookup key now
    = (s.lookup key now).map fun r => (r.1, r.2.under policy) := by
  simp only [lookup, show (s.under policy).table = s.table from rfl]
  cases s.table.find key with
  | none => rfl
  | some found =>
    cases found with
    | none => rfl
    | some p =>
      cases hmem : s.table.mem p with
      | none => simp [hmem]
      | some e =>
        by_cases hx : e.expired now
        · cases hrm : s.table.remove p <;> simp [hmem, hx, hrm, under]
        · simp [hmem, hx]

/-- A write to an entry does not look at the policy. -/
theorem modify_under (p : Ptr) (f : Entry → Entry) :
    (s.under policy).modify p f = (s.modify p f).map (·.under policy) := by
  simp only [modify, show (s.under policy).table = s.table from rfl]
  cases s.table.mem p <;> rfl

/-- `find` does not look at the policy. -/
theorem find_under (touch : Bool) : (s.under policy).find key now touch
    = (s.find key now touch).map fun r => (r.1, r.2.under policy) := by
  simp only [find, lookup_under]
  cases s.lookup key now with
  | none => rfl
  | some r =>
    obtain ⟨found, s₁⟩ := r
    cases found with
    | none => rfl
    | some p =>
      cases touch with
      | false => rfl
      | true =>
        simp only [Option.map_some, Option.bind_eq_bind, Option.bind_some, if_true, modify_under]
        cases s₁.modify p _ <;> rfl

/-- `erase` does not look at the policy. -/
theorem erase_under : (s.under policy).erase key now
    = (s.erase key now).map fun r => (r.1, r.2.under policy) := by
  simp only [erase, lookup_under]
  cases s.lookup key now with
  | none => rfl
  | some r =>
    obtain ⟨found, s₁⟩ := r
    cases found with
    | none => rfl
    | some p =>
      simp only [Option.map_some, Option.bind_eq_bind, Option.bind_some,
        show (s₁.under policy).table = s₁.table from rfl]
      cases s₁.table.remove p <;> rfl

/-- `setExpireAt` does not look at the policy. -/
theorem setExpireAt_under : (s.under policy).setExpireAt key expireAtMs now
    = (s.setExpireAt key expireAtMs now).map fun r => (r.1, r.2.under policy) := by
  simp only [setExpireAt, lookup_under]
  cases s.lookup key now with
  | none => rfl
  | some r =>
    obtain ⟨found, s₁⟩ := r
    cases found with
    | none => rfl
    | some p =>
      simp only [Option.map_some, Option.bind_eq_bind, Option.bind_some,
        show (s₁.under policy).table = s₁.table from rfl, modify_under]
      split
      · cases s₁.table.remove p <;> rfl
      · cases s₁.modify p _ <;> rfl

/-- `ttlMs` does not look at the policy. -/
theorem ttlMs_under : (s.under policy).ttlMs key now
    = (s.ttlMs key now).map fun r => (r.1, r.2.under policy) := by
  simp only [ttlMs, lookup_under]
  cases s.lookup key now with
  | none => rfl
  | some r =>
    obtain ⟨found, s₁⟩ := r
    cases found with
    | none => rfl
    | some p =>
      simp only [Option.map_some, Option.bind_eq_bind, Option.bind_some,
        show (s₁.under policy).table = s₁.table from rfl]
      cases s₁.table.mem p with
      | none => rfl
      | some e =>
        simp only [Option.bind_some]
        split <;> rfl

/-- `clear` does not look at the policy. -/
theorem clear_under : (s.under policy).clear = s.clear.map (·.under policy) := by
  simp only [clear, show (s.under policy).table = s.table from rfl]
  cases s.table.clear <;> rfl

/-- The insertion of a new key does not look at the policy, once there is room. -/
theorem insertNew_under : (s.under policy).insertNew key value expireAtMs now
    = (s.insertNew key value expireAtMs now).map (·.under policy) := by
  simp only [insertNew, show (s.under policy).table = s.table from rfl]
  cases s.table.insert key value with
  | none => rfl
  | some r =>
    obtain ⟨e, t⟩ := r
    cases e with
    | none => rfl
    | some p => exact @modify_under _ { s with table := t } policy p _

/-- Below the cap the policy is not looked at. -/
theorem makeRoom_under (hroom : (s.under .kNoEviction).makeRoom now = some (true, s₁)) :
    s₁ = s.under .kNoEviction ∧ s.makeRoom now = some (true, s) := by
  rcases makeRoom_cases hroom with ⟨-, rfl, hlt⟩ | ⟨hok, -⟩ | ⟨-, -, -, hpolicy⟩
  · have hnot : ¬ s.size ≥ s.maxKeys := Nat.not_le.mpr hlt
    exact ⟨rfl, by rw [makeRoom, if_neg hnot]⟩
  · cases hok
  · cases hpolicy

/-- A `set` that is not refused does the same under either policy. -/
theorem set_under
    (hset : (s.under .kNoEviction).set key value expireAtMs now = some (true, s₁)) :
    ∃ s', s.set key value expireAtMs now = some (true, s') ∧ s₁ = s'.under .kNoEviction := by
  simp only [set, lookup_under, Option.bind_eq_bind] at hset ⊢
  cases hlook : s.lookup key now with
  | none =>
    rw [hlook] at hset
    cases hset
  | some r =>
    obtain ⟨found, s₂⟩ := r
    simp only [hlook, Option.map_some, Option.bind_some,
      show (s₂.under .kNoEviction).table = s₂.table from rfl] at hset ⊢
    -- A past deadline deletes the key, any other writes it; only a new key asks for room.
    split at hset
    · next hpast =>
      rw [if_pos hpast]
      cases found with
      | none =>
        cases hset
        exact ⟨s₂, rfl, rfl⟩
      | some p =>
        simp only [Option.bind_eq_some_iff] at hset ⊢
        obtain ⟨t, hrm, heq⟩ := hset
        cases heq
        exact ⟨{ s₂ with table := t }, ⟨t, hrm, rfl⟩, rfl⟩
    · next hpast =>
      rw [if_neg hpast]
      cases found with
      | none =>
        simp only [Option.bind_eq_some_iff] at hset
        obtain ⟨⟨ok, s₃⟩, hroom, hset⟩ := hset
        cases ok with
        | false => cases hset
        | true =>
          obtain ⟨rfl, hroom'⟩ := makeRoom_under hroom
          simp only [if_true, insertNew_under, Option.bind_map, Option.bind_eq_some_iff,
            Function.comp_apply] at hset
          obtain ⟨s₄, hins, heq⟩ := hset
          cases heq
          exact ⟨s₄, by simp [hroom', hins], rfl⟩
      | some p =>
        simp only [Option.bind_eq_some_iff] at hset
        obtain ⟨t, hassign, s₃, hmod, heq⟩ := hset
        cases heq
        obtain ⟨s', hmod', rfl⟩ := Option.map_eq_some_iff.mp
          ((@modify_under _ { s₂ with table := t } .kNoEviction p _).symm.trans hmod)
        exact ⟨s', by simp [hassign, hmod'], rfl⟩

/-- A reply that is made of what a call returns. -/
theorem reply_under {α : Type} {f : α → Reply} {x y : Option (α × Store)} {r : Reply}
    (hxy : y = x.map fun r => (r.1, r.2.under policy))
    (h : (y.bind fun a => some (f a.1, a.2)) = some (r, s₁)) :
    ∃ s', (x.bind fun a => some (f a.1, a.2)) = some (r, s') ∧ s₁ = s'.under policy := by
  rw [hxy, Option.bind_map, Option.bind_eq_some_iff] at h
  obtain ⟨⟨a, s'⟩, hx, heq⟩ := h
  cases heq
  exact ⟨s', by rw [hx]; rfl, rfl⟩

/-- A call that is not refused does the same under either policy. -/
theorem Op.run_under {op : Op} {r : Reply} (hrun : op.run (s.under .kNoEviction) = some (r, s₁))
    (hr : op.setKey?.isSome → r = .bool true) :
    ∃ s', op.run s = some (r, s') ∧ s₁ = s'.under .kNoEviction := by
  cases op with
  | find key now touch =>
    simp only [Op.run, find_under, Option.bind_eq_bind, Option.bind_map, Option.bind_eq_some_iff,
      Function.comp_apply] at hrun ⊢
    obtain ⟨⟨found, s₂⟩, hfind, v, hread, heq⟩ := hrun
    cases heq
    exact ⟨s₂, ⟨(found, s₂), hfind, v, hread, rfl⟩, rfl⟩
  | set key value expireAtMs now =>
    simp only [Op.run, Option.bind_eq_bind, Option.bind_eq_some_iff] at hrun ⊢
    obtain ⟨⟨b, s₂⟩, hset, heq⟩ := hrun
    cases heq
    cases hr rfl
    obtain ⟨s', hset', rfl⟩ := set_under hset
    exact ⟨s', ⟨_, hset', rfl⟩, rfl⟩
  | erase key now => exact reply_under erase_under hrun
  | setExpireAt key expireAtMs now => exact reply_under setExpireAt_under hrun
  | ttlMs key now => exact reply_under (f := fun ms : Int64 => .ttl ms.toInt) ttlMs_under hrun
  | clear =>
    simp only [Op.run, clear_under, Option.bind_eq_bind, Option.bind_map, Option.bind_eq_some_iff,
      Function.comp_apply] at hrun ⊢
    obtain ⟨s₂, hclear, heq⟩ := hrun
    cases heq
    exact ⟨s₂, ⟨s₂, hclear, rfl⟩, rfl⟩
  | size =>
    cases hrun
    exact ⟨s, rfl, rfl⟩

/-! ### The simulation -/

omit [EntryPool] in
/-- What callers promise bounds the lengths of an entry. -/
theorem Op.Ok.fits {op : Op} (h : op.Ok) : op.Fits := by
  cases op with
  | set key value expireAtMs now =>
    obtain ⟨hkey, hvalue⟩ := h.2
    have hmax : kMaxBulkLength + kMaxBulkLength < 2 ^ 32 := by decide
    exact Nat.lt_of_le_of_lt (Nat.add_le_add hkey hvalue) hmax
  | find | erase | setExpireAt | ttlMs | clear | size => trivial

/-- The store `s` stands for the map `m` under the given policy. -/
structure Stands (policy : EvictionPolicy) (maxKeys : Nat) (s : Store) (m : RefMap) : Prop where
  cap : ∃ presized b₀, Cap presized b₀ maxKeys s
  policy_eq : s.policy = policy
  sim : Sim maxKeys (s.under .kNoEviction) m

namespace Stands

variable {maxKeys : Nat} {m : RefMap}

/-- A `set` is refused when its deadline has not passed, its key is absent and the store is full. -/
theorem of_refuses (h : Stands policy maxKeys s m)
    (hrefuses : m.refuses maxKeys (.set key value expireAtMs now) = true) :
    ¬ Past expireAtMs now ∧ s.view key = none ∧ s.size = s.maxKeys := by
  simp only [RefMap.refuses, RefMap.set, Expiry.past_ofMs, Bool.not_eq_true'] at hrefuses
  split at hrefuses
  · cases hrefuses
  next hpast =>
  split at hrefuses
  · cases hrefuses
  next hlookup =>
  split at hrefuses
  swap
  · cases hrefuses
  next hfull =>
  -- The purge has not removed anything, or there would be room.
  have hkeys : (m.purge key now.toInt).keys = m.keys :=
    Finset.eq_of_subset_of_card_le (m.keys_purge_subset key now.toInt)
      (by rw [hfull]; exact h.sim.card_le)
  have habsent : m.lookup key = none := by
    rwa [Finmap.lookup_eq_none, ← Finmap.mem_keys, hkeys, Finmap.mem_keys,
      ← Finmap.lookup_eq_none] at hlookup
  refine ⟨by simpa using hpast, ?_, ?_⟩
  · have habs := h.sim.abs key
    rw [habsent] at habs
    exact Option.map_eq_none_iff.mp habs.symm
  · have hcard : m.keys.card = s.size := h.sim.abs.card_keys h.sim.inv
    have hmax : s.maxKeys = maxKeys := h.sim.maxKeys_eq
    rw [← hcard, ← hkeys, hfull, hmax]

/-- A `set` that finds no room evicts. -/
theorem evict (h : Stands .kAllKeysLru maxKeys s m)
    (hfit : key.length + value.length < 2 ^ 32)
    (hrefuses : m.refuses maxKeys (.set key value expireAtMs now) = true) :
    ∃ s' m', s.set key value expireAtMs now = some (true, s') ∧
      (m.purge key now.toInt).Evicts now.toInt m' ∧
      Sim maxKeys (s'.under .kNoEviction)
        (m'.insert key (value, (Expiry.ofMs expireAtMs).apply none)) := by
  obtain ⟨hpast, habsent, hfull⟩ := h.of_refuses hrefuses
  obtain ⟨presized, b₀, hcap⟩ := h.cap
  have hsound : Sound s := ⟨hcap.inv, hcap.size_le, hcap.maxKeys_pos⟩
  obtain ⟨s', out, rng', hset, -, hview, hgone, hrest⟩ := hsound.set_evicting
    (Nat.pos_of_ne_zero hcap.samples_pos) hcap.samples_le h.policy_eq hfull hfit habsent hpast
  obtain ⟨_, _, hset', hcap'⟩ := hcap.set expireAtMs now hfit
  rw [hset] at hset'
  cases hset'
  have habs : Abs s.view m := h.sim.abs
  have hpurge : m.purge key now.toInt = m := by
    have hlook : m.lookup key = none := by rw [habs key, habsent]; rfl
    rw [RefMap.purge, hlook]
  rw [hpurge]
  -- Without the new key, the store has what it had before and what has not left.
  have hkept : ∀ k, s'.view.erase key k = if k ∈ s.keys \ s'.keys then none else s.view k := by
    intro k
    by_cases hk : k = key
    · subst hk
      simp [Dict.erase, habsent]
    · rw [Dict.erase, Function.update_of_ne hk]
      split
      · next hmem =>
        have hnot := (Finset.mem_sdiff.mp hmem).2
        rwa [mem_keys hcap'.inv, Option.not_isSome_iff_eq_none] at hnot
      · next hmem => exact hrest k hk hmem
  obtain ⟨m', hm'⟩ := Abs.exists_of_keys (v := s'.view.erase key) (K := s'.keys) fun k hk =>
    (mem_keys hcap'.inv).mpr (Dict.isSome_of_erase hk)
  have hlookup : ∀ k, m'.lookup k = if k ∈ s.keys \ s'.keys then none else m.lookup k := by
    intro k
    rw [hm' k, hkept k, habs k]
    split <;> rfl
  have habs' : Abs s'.view (m'.insert key (value, (Expiry.ofMs expireAtMs).apply none)) := by
    have hinsert := hm'.insert key (Dict.written none value expireAtMs now)
    rw [Dict.ref_written, Dict.erase, Function.update_idem, ← hview, Function.update_eq_self]
      at hinsert
    exact hinsert
  refine ⟨s', m', hset, ?_, hcap'.inv, rfl, hcap'.maxKeys_eq, h.sim.maxKeys_le, habs', ?_⟩
  · rcases hgone with hreaped | hlongest
    · refine .of_expired hlookup hreaped.nonempty fun k hk => ?_
      obtain ⟨p, -, it, hc, hx⟩ := (hreaped.gone_iff k).mp hk
      exact habs.expired_iff.mpr ⟨it, hcap.inv.toBase.view_of_contents hc, hx⟩
    · obtain ⟨q, hq, k, it, hc, hone, -⟩ := hlongest.gone
      have hk : s.view k = some it := hcap.inv.toBase.view_of_contents hc
      refine .of_one (k := k) (fun k' => by rw [hlookup k', hone]) ?_ fun hx => ?_
      · rw [← Finmap.lookup_isSome, habs k, hk]
        rfl
      · obtain ⟨it', hit', hx'⟩ := habs.expired_iff.mp hx
        rw [hk] at hit'
        cases hit'
        rw [hlongest.fresh q hq k it hc] at hx'
        cases hx'
  · have hcard := Abs.card_keys (s := s') hcap'.inv (show Abs s'.view _ from habs')
    rw [hcard, ← hcap'.maxKeys_eq]
    exact hcap'.size_le

/-- The step lemma: every call. -/
theorem step (h : Stands policy maxKeys s m) {op : Op} (hok : op.Ok) :
    ∃ r s' m', op.run s = some (r, s') ∧ m.Step policy maxKeys op r m' ∧
      Stands policy maxKeys s' m' := by
  obtain ⟨presized, b₀, hcap⟩ := h.cap
  have hfit := hok.fits
  -- Whatever the call gives, the capacity and the policy stay.
  have hstands : ∀ {r s' m'}, op.run s = some (r, s') → Sim maxKeys (s'.under .kNoEviction) m' →
      Stands policy maxKeys s' m' := by
    intro r s' m' hrun hsim
    have hcall : (Call.client op).run s = some s' := by
      rw [Call.run, hrun]
      rfl
    obtain ⟨s'', hrun', hcap'⟩ : ∃ s', (Call.client op).run s = some s' ∧
      Cap presized b₀ maxKeys s' := hcap.step hfit
    rw [hcall] at hrun'
    cases hrun'
    obtain ⟨s₁, hturn⟩ := Call.turn hcap.inv (show (Call.client op).Fits from hfit) hcall
    exact ⟨⟨presized, b₀, hcap'⟩,
      (hturn.policy.trans hturn.drops.policy).trans h.policy_eq, hsim⟩
  obtain ⟨s₁, hrun₁, hsim₁⟩ := h.sim.step hok
  by_cases hstays : policy = .kNoEviction ∨ m.refuses maxKeys op = false
  · obtain ⟨s', hrun, rfl⟩ : ∃ s', op.run s = some ((m.step maxKeys op).1, s') ∧
        s₁ = s'.under .kNoEviction := by
      rcases hstays with hpolicy | hroom
      · have hself : s.under .kNoEviction = s := by
          rw [← hpolicy, ← h.policy_eq]
          rfl
        rw [hself] at hrun₁
        refine ⟨s₁, hrun₁, ?_⟩
        rw [← hsim₁.policy]
        rfl
      · refine Op.run_under hrun₁ fun hset => ?_
        cases op with
        | set key value expireAtMs now =>
          simp only [RefMap.refuses, Bool.not_eq_false'] at hroom
          rw [RefMap.step, hroom]
        | find | erase | setExpireAt | ttlMs | clear | size => cases hset
    exact ⟨_, s', _, hrun, .plain hstays, hstands hrun hsim₁⟩
  · rw [not_or, Bool.not_eq_false] at hstays
    obtain ⟨hlru, hrefuses⟩ := hstays
    obtain rfl : policy = .kAllKeysLru := by
      cases policy with
      | kNoEviction => exact absurd rfl hlru
      | kAllKeysLru => rfl
    cases op with
    | set key value expireAtMs now =>
      obtain ⟨s', m', hset, hevicts, hsim⟩ := h.evict hfit hrefuses
      have hrun : (Op.set key value expireAtMs now).run s = some (.bool true, s') := by
        rw [Op.run, hset]
        rfl
      exact ⟨_, s', _, hrun, .evicting rfl hrefuses hevicts, hstands hrun hsim⟩
    | find | erase | setExpireAt | ttlMs | clear | size => cases hrefuses

/-- An expire cycle is a sweep of the map. -/
theorem cycle (h : Stands policy maxKeys s m) (now : Int64) (sampleLimit : Nat) :
    ∃ r s' m', s.activeExpireCycle now sampleLimit = some (r, s') ∧ m.Swept now.toInt m' ∧
      Stands policy maxKeys s' m' := by
  obtain ⟨presized, b₀, hcap⟩ := h.cap
  have habs : Abs s.view m := h.sim.abs
  obtain ⟨r, t', cursor', hrun, hreaped⟩ := activeExpireCycle_spec hcap.inv now sampleLimit
  obtain ⟨_, _, hrun', hcap'⟩ := hcap.activeExpireCycle now sampleLimit
  rw [hrun] at hrun'
  cases hrun'
  obtain ⟨m', hm'⟩ := Abs.exists_of_keys (v := t'.view) (K := t'.keys) fun k hk => by
    rwa [Table.mem_keys hreaped.inv.toBase]
  refine ⟨r, _, m', hrun, fun k => ?_, ⟨presized, b₀, hcap'⟩, h.policy_eq, hreaped.inv, rfl,
    h.sim.maxKeys_eq, h.sim.maxKeys_le, hm', ?_⟩
  · rw [hm' k, habs k]
    rcases hreaped.view hcap.inv k with heq | ⟨hnone, it, hit, hx⟩
    · exact Or.inl (congrArg _ heq)
    · exact Or.inr ⟨by rw [hnone]; rfl, habs.expired_iff.mpr ⟨it, hit, hx⟩⟩
  · have hcard : m'.keys.card = t'.size := Abs.card_keys hcap'.inv hm'
    have hle : t'.size ≤ s.maxKeys := hcap'.size_le
    rw [hcard, ← h.sim.maxKeys_eq]
    exact hle

/-- A new store stands for the empty map. -/
theorem new {cfg : Config} {rd : UInt64} (hmax : cfg.maxKeys ≤ kPoolCapacity)
    (hsamples : 1 ≤ cfg.lruSamples) (hsamples' : cfg.lruSamples ≤ 64)
    (hnew : Store.new cfg rd = some s) :
    Stands cfg.policy (resolveMaxKeys cfg.maxKeys) s ∅ := by
  obtain ⟨hinv, hview, -, hpolicy, hm, -⟩ := new_spec hnew
  refine ⟨⟨_, _, Cap.new hmax hsamples hsamples' hnew⟩, hpolicy, hinv, rfl, hm,
    (resolveMaxKeys_bounds hmax).2, fun k => ?_, by simp⟩
  rw [show (s.under .kNoEviction).view = s.view from rfl, hview]
  simp

end Stands

end Store

end TinyRedis

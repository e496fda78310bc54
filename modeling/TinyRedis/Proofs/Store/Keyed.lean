import TinyRedis.Core.Store
import TinyRedis.Proofs.Table.View

/-!
# `TinyRedis.Proofs.Store.Keyed`: the keyed operations as dictionary updates

A `Dict` is the abstract content of a store. Every keyed operation first purges its key, then reads
or writes that key alone. The lemmas here say so for `lookup`, `find`, `erase`, `setExpireAt`,
`ttlMs` and the part of `set` that needs no room, with the exact state of the store after the call.
What `set` does to make room is in `TinyRedis.Proofs.Store.Evict`.

* `Dict.live`, `purge`, `erase`, `touch`, `written`: the updates.
* `Table.Becomes`: a table operation as an update of the dictionary.
* `Leaves`: what a call leaves: a dictionary, and how many expired items it has removed on the way.
* `Looked`, `lookup_spec`: the lookup that every operation starts with.
* `find_spec`, `erase_spec`, `setExpireAt_spec`, `ttlMs_spec`, `clear_spec`: the operations.
* `set_past`, `set_present`, `set_absent`, `insertNew_spec`: the ways of a `set`.

An item expires when the time is after its deadline, so it is live at the deadline itself
(`Item.expired`). The operations remove an expired item where they meet it, and count it.
-/

set_option autoImplicit false

namespace TinyRedis

/-- The abstract content of a store. -/
abbrev Dict := Bytes → Option Item

/-- The item's deadline has passed. -/
def Item.expired (it : Item) (now : Int64) : Bool :=
  if it.expiresAtMs = kNoExpiry then false else now > it.expiresAtMs

namespace Dict

/-- The item under `key` that has not expired. -/
def live (v : Dict) (key : Bytes) (now : Int64) : Option Item :=
  (v key).filter fun it => !it.expired now

/-- The key is deleted. -/
def erase (v : Dict) (key : Bytes) : Dict := Function.update v key none

/-- The key is used at `now`. -/
def touch (v : Dict) (key : Bytes) (now : Int64) : Dict :=
  Function.update v key ((v key).map fun it => { it with lruClock := clock32 now })

/-- The key is deleted if its deadline has passed. -/
def purge (v : Dict) (key : Bytes) (now : Int64) : Dict := Function.update v key (v.live key now)

/-- The number of entries that a purge deletes. -/
def reaped (v : Dict) (key : Bytes) (now : Int64) : Nat :=
  if (v key).any (·.expired now) then 1 else 0

/-- The item that `set` stores over what it found. -/
def written (found : Option Item) (value : Bytes) (expireAtMs now : Int64) : Item where
  value := value
  expiresAtMs :=
    if expireAtMs = kKeepTtl then (found.map Item.expiresAtMs).getD kNoExpiry else expireAtMs
  lruClock := clock32 now

variable {v : Dict} {key : Bytes} {now : Int64}

/-- The purged key has its live item. -/
@[simp] theorem purge_self : v.purge key now key = v.live key now := Function.update_self ..

/-- What is not there is not live. -/
theorem live_eq_none_of_none (h : v key = none) : v.live key now = none := by simp [live, h]

/-- What has expired is not live. -/
theorem live_of_expired {it : Item} (h : v key = some it) (he : it.expired now = true) :
    v.live key now = none := by simp [live, h, he]

/-- What is there and has not expired is live. -/
theorem live_of_not_expired {it : Item} (h : v key = some it) (he : it.expired now = false) :
    v.live key now = some it := by simp [live, h, he]

/-- A write over a purged key. -/
theorem update_purge (now : Int64) (o : Option Item) :
    Function.update (v.purge key now) key o = Function.update v key o :=
  Function.update_idem ..

/-- A key without a live item is erased by a purge. -/
theorem purge_eq_erase (h : v.live key now = none) : v.purge key now = v.erase key := by
  rw [purge, h, erase]

/-- A purge that deletes nothing changes nothing. -/
theorem purge_of_live (h : v.live key now = v key) : v.purge key now = v := by
  rw [purge, h, Function.update_eq_self]

end Dict

variable [EntryPool]

/-- `t'` is `t` with its content replaced by `v`, over the same buckets and seed. -/
structure Table.Becomes (t t' : Table) (v : Dict) : Prop where
  inv : t'.Inv
  view : t'.view = v
  hashSeed : t'.hashSeed = t.hashSeed
  bucketCount : t'.bucketCount = t.bucketCount

namespace Table

variable {t t' : Table} {p : Ptr} {k : Bytes} {it : Item}

/-- A table that nothing is done to has its own view. -/
theorem Becomes.rfl (h : t.Inv) : t.Becomes t t.view := ⟨h, Eq.refl _, Eq.refl _, Eq.refl _⟩

/-- Two operations, one after the other, lead to the view of the second. -/
theorem Becomes.trans {t'' : Table} {v v' : Dict} (h : t.Becomes t' v) (h' : t'.Becomes t'' v') :
    t.Becomes t'' v' :=
  ⟨h'.inv, h'.view, h'.hashSeed.trans h.hashSeed, h'.bucketCount.trans h.bucketCount⟩

/-- Removing a block removes its key. -/
theorem remove_becomes (h : t.Inv) (hc : t.contents p = some (k, it)) :
    ∃ t', t.remove p = some t' ∧ t.Becomes t' (Function.update t.view k none) := by
  obtain ⟨t', ht', hinv, hcont, -, hseed, hbc, -⟩ := remove_spec h hc
  exact ⟨t', ht', hinv, view_remove h.toBase hinv.toBase hc hcont, hseed, hbc⟩

end Table

omit [EntryPool] in
/-- An entry expires with its item. -/
theorem Entry.expired_eq {e : Entry} {it : Item} (h : e.expiresAtMs = it.expiresAtMs)
    (now : Int64) : e.expired now = it.expired now := by
  rw [Entry.expired, Item.expired, h]

namespace Store

/-- The content of the store. -/
def view (s : Store) : Dict := s.table.view

/-- A write of the deadline and the clock through a pointer. -/
theorem modify_spec {s : Store} (h : s.table.Inv) {p : Ptr} {k : Bytes} {it : Item}
    (hc : s.table.contents p = some (k, it)) {f : Entry → Entry} (a : Int64 → Int64) (c : UInt32)
    (hf : ∀ e, f e = { e with expiresAtMs := a e.expiresAtMs, lruClock := c }) :
    ∃ t', s.modify p f = some { s with table := t' } ∧
      t'.contents = Function.update s.table.contents p
        (some (k, { it with expiresAtMs := a it.expiresAtMs, lruClock := c })) ∧
      s.table.Becomes t' (Function.update s.view k
        (some { it with expiresAtMs := a it.expiresAtMs, lruClock := c })) := by
  obtain ⟨e, he, hkv, hh, hexp, -⟩ := h.mem_eq hc
  have hfe := hf e
  rw [hexp] at hfe
  have hkv' : (f e).Holds k it.value := by
    rw [hfe]
    exact hkv.congr rfl rfl rfl
  obtain ⟨hbase, hcont⟩ := h.toBase.write he hkv hkv' (by rw [hfe]) (by rw [hfe])
  refine ⟨_, by simp only [modify, he, Option.bind_eq_bind, Option.bind_some]; rfl,
    by rw [hcont, hfe], ⟨hbase, h.load⟩, ?_, rfl, rfl⟩
  rw [hfe] at hbase hcont ⊢
  refine Table.view_write h.toBase hbase (fun k' it' hc' => ?_) hcont
  rw [hc] at hc'
  cases hc'
  rfl

/-- A call leaves the content `v`, counts `n` expired keys, and touches nothing else. -/
structure Leaves (s s' : Store) (v : Dict) (n : Nat) : Prop where
  table : s.table.Becomes s'.table v
  rest : s' = { s with table := s'.table, expiredKeys := s.expiredKeys + n }

/-- What `lookup` returns and leaves: the key is purged, and the pointer is to its block. -/
structure Looked (s : Store) (key : Bytes) (now : Int64) (r : Option Ptr) (s' : Store) : Prop
    extends Leaves s s' (s.view.purge key now) (s.view.reaped key now) where
  found : ∀ p, r = some p ↔ ∃ it, s'.table.contents p = some (key, it)

/-- A lookup purges its key, and finds the block of the live item. -/
theorem lookup_spec {s : Store} (h : s.table.Inv) (key : Bytes) (now : Int64) :
    ∃ r s', s.lookup key now = some (r, s') ∧ Looked s key now r s' := by
  rcases Table.find_cases h.toBase key with ⟨hfind, hview⟩ | ⟨p, it, hfind, hview, hc⟩
  · -- absent
    have hview' : s.view key = none := hview
    have hpurge : s.view.purge key now = s.view :=
      Dict.purge_of_live ((Dict.live_eq_none_of_none hview').trans hview'.symm)
    refine ⟨none, s, by simp [lookup, hfind], ⟨⟨?_, ?_⟩, fun p => ?_⟩⟩
    · rw [hpurge]
      exact Table.Becomes.rfl h
    · simp [Dict.reaped, hview']
    · simpa using (Table.view_eq_none_iff h.toBase).mp hview p
  · obtain ⟨e, he, -, -, hexp, -⟩ := h.mem_eq hc
    have hexpired := Entry.expired_eq hexp now
    have hview' : s.view key = some it := hview
    cases hx : it.expired now with
    | true =>
      -- Past its deadline: the entry goes, and the pointer is null.
      obtain ⟨t', ht', hb⟩ := Table.remove_becomes h hc
      refine ⟨none, { s with table := t', expiredKeys := s.expiredKeys + 1 },
        by simp [lookup, hfind, he, hexpired, hx, ht'], ⟨⟨?_, ?_⟩, fun p => ?_⟩⟩
      · rw [Dict.purge, Dict.live_of_expired hview' hx]
        exact hb
      · simp [Dict.reaped, hview', hx]
      · have hnone : t'.view key = none := by rw [hb.view, Function.update_self]
        simpa using (Table.view_eq_none_iff hb.inv.toBase).mp hnone p
    | false =>
      -- Live: nothing changes.
      have hlive := Dict.live_of_not_expired hview' hx
      refine ⟨some p, s, by simp [lookup, hfind, he, hexpired, hx], ⟨⟨?_, ?_⟩, fun q => ?_⟩⟩
      · rw [Dict.purge_of_live (hlive.trans hview'.symm)]
        exact Table.Becomes.rfl h
      · simp [Dict.reaped, hview', hx]
      · constructor
        · intro heq
          cases heq
          exact ⟨it, hc⟩
        · rintro ⟨it', hq⟩
          rw [h.contents_inj hc hq]

namespace Looked

variable {s s' : Store} {key : Bytes} {now : Int64} {r : Option Ptr}

/-- The view of the key after the lookup is the live item. -/
theorem view_key (h : Looked s key now r s') : s'.view key = s.view.live key now := by
  rw [view, h.table.view, Dict.purge_self]

/-- The pointer and the live item come together. -/
theorem cases (h : Looked s key now r s') :
    (r = none ∧ s.view.live key now = none) ∨
      ∃ p it, r = some p ∧ s.view.live key now = some it ∧
        s'.table.contents p = some (key, it) := by
  cases r with
  | none =>
    refine Or.inl ⟨rfl, ?_⟩
    rw [← h.view_key, view, Table.view_eq_none_iff h.table.inv.toBase]
    intro p it hc
    exact absurd ((h.found p).mpr ⟨it, hc⟩) (by simp)
  | some p =>
    obtain ⟨it, hc⟩ := (h.found p).mp rfl
    refine Or.inr ⟨p, it, rfl, ?_, hc⟩
    rw [← h.view_key]
    exact h.table.inv.toBase.view_of_contents hc

/-- There is no pointer to a key that is not live. -/
theorem eq_none (h : Looked s key now r s') (hlive : s.view.live key now = none) : r = none := by
  rcases h.cases with ⟨hr, -⟩ | ⟨p, it, -, hsome, -⟩
  · exact hr
  · rw [hlive] at hsome
    cases hsome

/-- The pointer to a live key is to its block. -/
theorem eq_some (h : Looked s key now r s') {it : Item} (hlive : s.view.live key now = some it) :
    ∃ p, r = some p ∧ s'.table.contents p = some (key, it) := by
  rcases h.cases with ⟨-, hnone⟩ | ⟨p, it', hr, hsome, hc⟩
  · rw [hlive] at hnone
    cases hnone
  · rw [hlive] at hsome
    cases hsome
    exact ⟨p, hr, hc⟩

/-- A later step of the call that replaces the table only. -/
theorem step {t' : Table} {v : Dict} (h : Looked s key now r s') (ht : s'.table.Becomes t' v) :
    Leaves s { s' with table := t' } v (s.view.reaped key now) := by
  refine ⟨h.table.trans ht, ?_⟩
  rw [h.rest]

/-- Removing the found entry erases the key. -/
theorem remove {p : Ptr} {it : Item} (h : Looked s key now r s')
    (hc : s'.table.contents p = some (key, it)) :
    ∃ t', s'.table.remove p = some t' ∧
      Leaves s { s' with table := t' } (s.view.erase key) (s.view.reaped key now) := by
  obtain ⟨t', ht', hb⟩ := Table.remove_becomes h.table.inv hc
  refine ⟨t', ht', h.step ?_⟩
  rw [h.table.view, Dict.update_purge] at hb
  exact hb

end Looked

/-! ### The operations -/

/-- The value behind the pointer that `find` returns. -/
def read (s : Store) : Option Ptr → Option (Option Bytes)
  | none => some none
  | some p => do return some (← (← s.table.mem p).value)

/-- Reading through a pointer to the key's block gives the key's value. -/
theorem read_spec {s : Store} (h : s.table.Inv) {key : Bytes} {r : Option Ptr}
    (hr : ∀ p, r = some p ↔ ∃ it, s.table.contents p = some (key, it)) :
    s.read r = some ((s.view key).map Item.value) := by
  cases r with
  | none =>
    have hnone : s.view key = none := (Table.view_eq_none_iff h.toBase).mpr fun p it hc =>
      absurd ((hr p).mpr ⟨it, hc⟩) (by simp)
    rw [hnone]
    rfl
  | some p =>
    obtain ⟨it, hc⟩ := (hr p).mp rfl
    obtain ⟨e, he, hkv, -⟩ := h.mem_eq hc
    have hview : s.view key = some it := h.toBase.view_of_contents hc
    simp [read, he, hkv.value, hview]

variable {s : Store}

/-- `find` purges its key, and marks it as used if it is asked to. -/
theorem find_spec (h : s.table.Inv) (key : Bytes) (now : Int64) (touch : Bool) :
    ∃ r s', s.find key now touch = some (r, s') ∧
      Leaves s s' (if touch then (s.view.purge key now).touch key now
        else s.view.purge key now) (s.view.reaped key now) ∧
      ∀ p, r = some p ↔ ∃ it, s'.table.contents p = some (key, it) := by
  obtain ⟨r, s₁, hlook, hL⟩ := lookup_spec h key now
  cases touch with
  | false =>
    refine ⟨r, s₁, ?_, hL.toLeaves, hL.found⟩
    cases r <;> simp [find, hlook]
  | true =>
    rcases hL.cases with ⟨rfl, hlive⟩ | ⟨p, it, rfl, hlive, hc⟩
    · -- nothing to touch
      have htouch : (s.view.purge key now).touch key now = s.view.purge key now := by
        rw [Dict.touch, Dict.purge_self, hlive, Option.map_none, ← hlive, ← Dict.purge_self,
          Function.update_eq_self]
      refine ⟨none, s₁, by simp [find, hlook], ?_, hL.found⟩
      simpa [htouch] using hL.toLeaves
    · -- The clock of the found entry is written, which moves no entry.
      obtain ⟨t', hmod, hcont, hb⟩ := modify_spec hL.table.inv hc (fun d => d) (clock32 now)
        (f := fun e => { e with lruClock := clock32 now }) (fun e => rfl)
      refine ⟨some p, { s₁ with table := t' }, by simp [find, hlook, hmod], ?_, fun q => ?_⟩
      · refine hL.step ?_
        rw [view, hL.table.view] at hb
        simpa [Dict.touch, hlive] using hb
      · constructor
        · intro hq
          cases hq
          exact ⟨_, by rw [hcont, Function.update_self]⟩
        · rintro ⟨it', hq⟩
          have hp : t'.contents p = some (key, { it with lruClock := clock32 now }) := by
            rw [hcont, Function.update_self]
          rw [hb.inv.toBase.contents_inj hp hq]

/-- `erase` removes its key, and says whether it was live. -/
theorem erase_spec (h : s.table.Inv) (key : Bytes) (now : Int64) :
    ∃ s', s.erase key now = some ((s.view.live key now).isSome, s') ∧
      Leaves s s' (s.view.erase key) (s.view.reaped key now) := by
  obtain ⟨r, s₁, hlook, hL⟩ := lookup_spec h key now
  rcases hL.cases with ⟨rfl, hlive⟩ | ⟨p, it, rfl, hlive, hc⟩
  · refine ⟨s₁, by simp [erase, hlook, hlive], ?_⟩
    rw [← Dict.purge_eq_erase hlive]
    exact hL.toLeaves
  · obtain ⟨t', ht', hleaves⟩ := hL.remove hc
    exact ⟨_, by simp [erase, hlook, hlive, ht'], hleaves⟩

/-- `setExpireAt` gives a live item a deadline, or removes it when the deadline is over. -/
theorem setExpireAt_spec (h : s.table.Inv) (key : Bytes) (expireAtMs now : Int64) :
    ∃ s', s.setExpireAt key expireAtMs now = some ((s.view.live key now).isSome, s') ∧
      Leaves s s' (if expireAtMs < now then s.view.erase key
        else Function.update s.view key ((s.view.live key now).map fun it =>
          { it with expiresAtMs := expireAtMs, lruClock := clock32 now }))
        (s.view.reaped key now) := by
  obtain ⟨r, s₁, hlook, hL⟩ := lookup_spec h key now
  rcases hL.cases with ⟨rfl, hlive⟩ | ⟨p, it, rfl, hlive, hc⟩
  · refine ⟨s₁, by simp [setExpireAt, hlook, hlive], ?_⟩
    have hleaves := hL.toLeaves
    rw [Dict.purge_eq_erase hlive] at hleaves
    simpa only [hlive, Option.map_none, ← show s.view.erase key = Function.update s.view key none
      from rfl, ite_self] using hleaves
  · by_cases hlt : expireAtMs < now
    · obtain ⟨t', ht', hleaves⟩ := hL.remove hc
      refine ⟨{ s₁ with table := t' }, by simp [setExpireAt, hlook, hlive, hlt, ht'], ?_⟩
      simpa only [if_pos hlt] using hleaves
    · obtain ⟨t', hmod, -, hb⟩ := modify_spec hL.table.inv hc (fun _ => expireAtMs) (clock32 now)
        (f := fun e => { e with lruClock := clock32 now, expiresAtMs := expireAtMs })
        (fun e => rfl)
      refine ⟨{ s₁ with table := t' }, by simp [setExpireAt, hlook, hlive, hlt, hmod],
        hL.step ?_⟩
      rw [view, hL.table.view, Dict.update_purge] at hb
      simpa only [if_neg hlt, hlive, Option.map_some] using hb

/-- The reply of `ttlMs` for a live item. -/
def ttlOf (found : Option Item) (now : Int64) : Int64 :=
  match found with
  | none => -2
  | some it => if it.expiresAtMs = kNoExpiry then kNoExpiry else it.expiresAtMs - now

/-- `ttlMs` purges its key, and says what is left of its item. -/
theorem ttlMs_spec (h : s.table.Inv) (key : Bytes) (now : Int64) :
    ∃ s', s.ttlMs key now = some (ttlOf (s.view.live key now) now, s') ∧
      Leaves s s' (s.view.purge key now) (s.view.reaped key now) := by
  obtain ⟨r, s₁, hlook, hL⟩ := lookup_spec h key now
  rcases hL.cases with ⟨rfl, hlive⟩ | ⟨p, it, rfl, hlive, hc⟩
  · exact ⟨s₁, by simp [ttlMs, hlook, hlive, ttlOf], hL.toLeaves⟩
  · obtain ⟨e, he, -, -, hexp, -⟩ := hL.table.inv.mem_eq hc
    refine ⟨s₁, ?_, hL.toLeaves⟩
    by_cases hno : it.expiresAtMs = kNoExpiry <;>
      simp [ttlMs, hlook, hlive, ttlOf, he, hexp, hno]

/-- `clear` leaves nothing, and takes the cursor back. -/
theorem clear_spec (h : s.table.Inv) :
    ∃ t', s.clear = some { s with table := t', expireCursor := 0 } ∧
      s.table.Becomes t' (fun _ => none) := by
  obtain ⟨t', ht', hinv, hcont, -, hseed, hbc⟩ := Table.clear_spec h
  exact ⟨t', by simp [clear, ht'], hinv, Table.view_empty hinv.toBase hcont, hseed, hbc⟩

/-! ### `set` -/

/-- The deadline given to `set` is explicit and has passed. -/
def Past (expireAtMs now : Int64) : Prop :=
  expireAtMs ≠ kNoExpiry ∧ expireAtMs ≠ kKeepTtl ∧ expireAtMs < now

/-- Whether a deadline is over can be checked. -/
instance (expireAtMs now : Int64) : Decidable (Past expireAtMs now) :=
  inferInstanceAs (Decidable (_ ∧ _ ∧ _))

/-- A past deadline erases the key. -/
theorem set_past (h : s.table.Inv) (key value : Bytes) {expireAtMs now : Int64}
    (hpast : Past expireAtMs now) :
    ∃ s', s.set key value expireAtMs now = some (true, s') ∧
      Leaves s s' (s.view.erase key) (s.view.reaped key now) := by
  obtain ⟨r, s₁, hlook, hL⟩ := lookup_spec h key now
  have hif : expireAtMs ≠ kNoExpiry ∧ expireAtMs ≠ kKeepTtl ∧ expireAtMs < now := hpast
  rcases hL.cases with ⟨rfl, hlive⟩ | ⟨p, it, rfl, hlive, hc⟩
  · refine ⟨s₁, by simp [set, hlook, hif], ?_⟩
    rw [← Dict.purge_eq_erase hlive]
    exact hL.toLeaves
  · obtain ⟨t', ht', hleaves⟩ := hL.remove hc
    exact ⟨_, by simp [set, hlook, hif, ht'], hleaves⟩

/-- A live key is overwritten in place. -/
theorem set_present (h : s.table.Inv) {key value : Bytes} {expireAtMs now : Int64}
    (hfit : key.length + value.length < 2 ^ 32) (hpast : ¬ Past expireAtMs now) {it : Item}
    (hlive : s.view.live key now = some it) :
    ∃ s', s.set key value expireAtMs now = some (true, s') ∧
      Leaves s s' (Function.update s.view key
        (some (Dict.written (some it) value expireAtMs now))) (s.view.reaped key now) := by
  obtain ⟨r, s₁, hlook, hL⟩ := lookup_spec h key now
  have hif : ¬ (expireAtMs ≠ kNoExpiry ∧ expireAtMs ≠ kKeepTtl ∧ expireAtMs < now) := hpast
  obtain ⟨p, rfl, hc⟩ := hL.eq_some hlive
  -- `assign` replaces the value, then the deadline and the clock are written.
  obtain ⟨t₂, ht₂, hinv₂, hcont₂, -, hseed₂, hbuckets₂⟩ :=
    Table.assign_spec hL.table.inv hc hfit
  have hview₂ := Table.view_write hL.table.inv.toBase hinv₂.toBase (fun k' it' hc' => by
    rw [hc] at hc'
    cases hc'
    rfl) hcont₂
  have hc₂ : t₂.contents p = some (key, { it with value := value }) := by
    rw [hcont₂, Function.update_self]
  have hb₂ : s₁.table.Becomes t₂ t₂.view :=
    ⟨hinv₂, rfl, hseed₂, by rw [Table.bucketCount, Table.bucketCount, hbuckets₂]⟩
  obtain ⟨t₃, hmod, -, hb₃⟩ := modify_spec (s := { s₁ with table := t₂ }) hinv₂ hc₂
    (fun d => if expireAtMs = kKeepTtl then d else expireAtMs) (clock32 now)
    (f := fun e => { e with
      expiresAtMs := if expireAtMs = kKeepTtl then e.expiresAtMs else expireAtMs
      lruClock := clock32 now }) (fun e => rfl)
  refine ⟨{ s₁ with table := t₃ }, ?_, hL.step (hb₂.trans ?_)⟩
  · simp only [set, hlook, Option.bind_eq_bind, Option.bind_some, if_neg hif, ht₂, hmod,
      Option.pure_def]
  · simpa only [view, hview₂, Function.update_idem, hL.table.view, Dict.update_purge,
      Dict.written, Option.map_some, Option.getD_some] using hb₃

/-- An absent key needs room, then an insertion. -/
theorem set_absent {key value : Bytes} {expireAtMs now : Int64} {s₁ : Store}
    (hlook : s.lookup key now = some (none, s₁)) (hpast : ¬ Past expireAtMs now) :
    s.set key value expireAtMs now = (do
      let (ok, s₂) ← s₁.makeRoom now
      if ok then return (true, ← s₂.insertNew key value expireAtMs now)
      else return (false, s₂)) := by
  have hif : ¬ (expireAtMs ≠ kNoExpiry ∧ expireAtMs ≠ kKeepTtl ∧ expireAtMs < now) := hpast
  simp only [set, hlook, Option.bind_eq_bind, Option.bind_some, if_neg hif]

/-- The insertion of an absent key while the pool has a block: the insert gives a pointer, and
the table doubles exactly when it was full. -/
theorem insertNew_spec (h : s.table.Inv) {key value : Bytes} (expireAtMs now : Int64)
    (hfit : key.length + value.length < 2 ^ 32) (habsent : s.view key = none)
    (hroom : s.size < kPoolCapacity) :
    ∃ t', s.insertNew key value expireAtMs now = some { s with table := t' } ∧ t'.Inv ∧
      t'.view = Function.update s.view key (some (Dict.written none value expireAtMs now)) ∧
      t'.size = s.size + 1 ∧ t'.hashSeed = s.table.hashSeed ∧
      t'.bucketCount = if s.bucketCount < s.size + 1 then s.bucketCount * 2
        else s.bucketCount := by
  rcases Table.insert_spec h hfit habsent with ⟨hfull, -⟩ |
    ⟨p, t₁, hins, hinv₁, hfree, hcont₁, hlive₁, hseed₁, hbc₁⟩
  · exact absurd hfull (Nat.ne_of_lt hroom)
  · have hc₁ : t₁.contents p = some (key, ⟨value, kNoExpiry, 0⟩) := by
      rw [hcont₁, Function.update_self]
    have hview₁ := Table.view_write h.toBase hinv₁.toBase (fun k' it' hc' => by
      rw [hfree] at hc'
      cases hc') hcont₁
    -- `kKeepTtl` has nothing to keep on a new key.
    obtain ⟨t₂, hmod, -, hb₂⟩ := modify_spec (s := { s with table := t₁ }) hinv₁ hc₁
      (fun _ => if expireAtMs = kKeepTtl then kNoExpiry else expireAtMs) (clock32 now)
      (f := fun e => { e with
        expiresAtMs := if expireAtMs = kKeepTtl then kNoExpiry else expireAtMs
        lruClock := clock32 now }) (fun e => rfl)
    refine ⟨t₂, ?_, hb₂.inv, ?_, ?_, hb₂.hashSeed.trans hseed₁, hb₂.bucketCount.trans hbc₁⟩
    · simp only [insertNew, hins, Option.bind_eq_bind, Option.bind_some, hmod]
    · rw [hb₂.view, view, hview₁, Function.update_idem]
      rfl
    · -- The deadline write keeps the keys.
      have hkeys : t₂.keys = t₁.keys := by
        ext k
        rw [Table.mem_keys hb₂.inv.toBase, Table.mem_keys hinv₁.toBase, hb₂.view, view, hview₁]
        by_cases hk : k = key <;> simp [hk]
      rw [← Table.card_keys hb₂.inv.toBase, hkeys, Table.card_keys hinv₁.toBase]
      exact hlive₁

end Store

end TinyRedis

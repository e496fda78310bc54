import TinyRedis.Proofs.Store.Quiet
import TinyRedis.Proofs.Store.Sweep

/-!
# `TinyRedis.Proofs.Store.Reclaim`: expired items do not stay

The cursor of the expire cycle outlives the call: a cycle goes on where the last one stopped, and
other calls come in between. This file shows that whatever they are, an item that has expired at the
time `T` is gone after `2 * bucketCount` cycles made at `T` or later.

A call at `T` or later never makes an item that has expired at `T` already. It may double the table,
but the keys that are ahead of the cursor stay ahead of it: the order of the ranks does not depend
on the width (`revBits_lt_iff_of_le`). This is `Ages`.

A cycle scans at least one bucket, so it moves the cursor to a later rank or it wraps (`Advance`).
Up to the first wrap nothing is known. From then on nothing that has expired at `T` is behind the
cursor, so at the second wrap nothing is left. `Sweeping` counts the cycles of the two rounds
against the rank of the cursor.

* `set_ages`, `Op.ages`: the calls of clients.
* `Scanned.advance`, `PassTrace.advance`, `LoopTrace.advance`: a scan step, a pass, and a cycle.
* `Sweeping.ages`, `Sweeping.cycle`: a call keeps the count, and a cycle counts one up.
* `Sweeping.clean`: after two rounds nothing is left.

The server makes the calls and the cycles in one run: see `TinyRedis.Proofs.Net.Reclaim`.
-/

set_option autoImplicit false

namespace TinyRedis

open Lib

namespace Dict

variable {v : Dict} {key k : Bytes} {T now : Int64} {o : Option Item}

/-- An item is there that has expired. -/
theorem expiredAt_iff : v.expiredAt T k = true ↔ ∃ it, v k = some it ∧ it.expired T = true := by
  rw [expiredAt]
  cases v k <;> simp

/-- A live item had not expired before. -/
theorem expired_eq_false_of_live {it : Item} (h : v.live key now = some it) (hle : T ≤ now) :
    it.expired T = false := by
  rw [live, Option.filter_eq_some_iff] at h
  by_contra hx
  rw [Bool.not_eq_false] at hx
  have hlive := h.2
  rw [Item.expired_mono hle hx] at hlive
  cases hlive

/-- Writing an item that has not expired adds no expired one. -/
theorem expiredAt_of_update (ho : ∀ it ∈ o, it.expired T = false)
    (h : expiredAt (Function.update v key o) T k = true) : v.expiredAt T k = true := by
  unfold expiredAt at *
  by_cases hk : k = key
  · subst hk
    rw [Function.update_self] at h
    cases o with
    | none => cases h
    | some it =>
      rw [Option.any_some, ho it rfl] at h
      cases h
  · rwa [Function.update_of_ne hk] at h

/-- A purge makes no item that has expired. -/
theorem expiredAt_of_purge (hle : T ≤ now) (h : (v.purge key now).expiredAt T k = true) :
    v.expiredAt T k = true :=
  expiredAt_of_update (fun _ hit => expired_eq_false_of_live hit hle) h

/-- An erasure makes no item that has expired. -/
theorem expiredAt_of_erase (h : (v.erase key).expiredAt T k = true) : v.expiredAt T k = true :=
  expiredAt_of_update (by simp) h

/-- A touch keeps the deadline. -/
theorem expiredAt_of_touch (h : (v.touch key now).expiredAt T k = true) :
    v.expiredAt T k = true := by
  by_cases hk : k = key
  · subst hk
    rw [expiredAt, touch, Function.update_self, Option.any_map] at h
    exact h
  · rwa [expiredAt, touch, Function.update_of_ne hk] at h

/-- What is written with a deadline that has not passed has not expired. -/
theorem expired_written {found : Option Item} {value : Bytes} {expireAtMs : Int64}
    (hfound : ∀ it ∈ found, it.expired T = false) (hpast : ¬ Store.Past expireAtMs now)
    (hle : T ≤ now) : (written found value expireAtMs now).expired T = false := by
  by_cases hkeep : expireAtMs = kKeepTtl
  · -- The deadline is that of the item found, if any.
    cases found with
    | none => simp [written, Item.expired, hkeep]
    | some it =>
      have hit := hfound it rfl
      simpa [written, Item.expired, hkeep] using hit
  · by_cases hno : expireAtMs = kNoExpiry
    · simp [written, Item.expired, hno, show kNoExpiry ≠ kKeepTtl by decide]
    · have hge : now ≤ expireAtMs := by
        rw [← Int64.not_lt]
        exact fun hlt => hpast ⟨hno, hkeep, hlt⟩
      have hgt : ¬ T > expireAtMs := Int64.not_lt.mpr (Int64.le_trans hle hge)
      simp [written, Item.expired, hkeep, hno, hgt]

end Dict

variable [EntryPool]

namespace Store

/-! ### Other calls -/

/-- What a call at `T` or later does: no item is there that has expired at `T` and was not there
before. The table may grow, and the cursor stays where it is unless the store is emptied. -/
structure Ages (T : Int64) (s s' : Store) : Prop where
  inv : s'.table.Inv
  hashSeed : s'.table.hashSeed = s.table.hashSeed
  grows : s.bucketCount ≤ s'.bucketCount
  width : s.bucketCount ≤ 2 ^ 63 → s'.bucketCount ≤ 2 ^ 63
  cursor : s'.expireCursor = s.expireCursor ∨
    s'.expireCursor = 0 ∧ ∀ k, s'.view.expiredAt T k = false
  stale : ∀ k, s'.view.expiredAt T k = true → s.view.expiredAt T k = true

variable {T now : Int64} {s s' : Store}

namespace Ages

/-- A store that nothing is done to ages. -/
theorem rfl (h : s.table.Inv) : Ages T s s :=
  ⟨h, Eq.refl _, Nat.le_refl _, id, Or.inl (Eq.refl _), fun _ => id⟩

/-- One call after another. -/
theorem trans {s'' : Store} (h : Ages T s s') (h' : Ages T s' s'') : Ages T s s'' where
  inv := h'.inv
  hashSeed := h'.hashSeed.trans h.hashSeed
  grows := Nat.le_trans h.grows h'.grows
  width hle := h'.width (h.width hle)
  cursor := by
    rcases h'.cursor with heq | hzero
    · rcases h.cursor with heq' | ⟨hzero', hnone⟩
      · exact Or.inl (heq.trans heq')
      · refine Or.inr ⟨heq.trans hzero', fun k => ?_⟩
        by_contra hk
        rw [Bool.not_eq_false] at hk
        have hold := h'.stale k hk
        rw [hnone k] at hold
        cases hold
    · exact Or.inr hzero
  stale k hk := h.stale k (h'.stale k hk)

end Ages

/-- A call that leaves the table as wide as it was, and makes no item that has expired. -/
theorem Leaves.ages {v : Dict} {n : Nat} (h : Leaves s s' v n)
    (hv : ∀ k, v.expiredAt T k = true → s.view.expiredAt T k = true) : Ages T s s' where
  inv := h.table.inv
  hashSeed := h.table.hashSeed
  grows := Nat.le_of_eq h.table.bucketCount.symm
  width hle := Nat.le_trans (Nat.le_of_eq h.table.bucketCount) hle
  cursor := Or.inl (by rw [h.rest])
  stale k hk := hv k (by rw [← h.table.view]; exact hk)

/-- Making room evicts, or does nothing. -/
theorem makeRoom_ages (h : s.table.Inv) {ok : Bool} (hroom : s.makeRoom now = some (ok, s')) :
    Ages T s s' := by
  rcases makeRoom_cases hroom with ⟨-, rfl, -⟩ | ⟨-, rfl, -⟩ | ⟨-, hevict, -⟩
  · exact Ages.rfl h
  · exact Ages.rfl h
  · have hdrops := (evictOne_drops h hevict).1
    obtain ⟨out, rng', t', -, hinv, hseed, hbuckets, hout⟩ := evictOne_of_some h hevict
    have hcursor : s'.table = t' ∧ s'.expireCursor = s.expireCursor := by
      cases hout with
      | expired => exact ⟨Eq.refl _, Eq.refl _⟩
      | evicted => exact ⟨Eq.refl _, Eq.refl _⟩
    obtain ⟨rfl, hcursor⟩ := hcursor
    refine ⟨hinv, hseed, Nat.le_of_eq hbuckets.symm, Nat.le_trans (Nat.le_of_eq hbuckets),
      Or.inl hcursor, fun k hk => ?_⟩
    rcases hdrops.view k with heq | hnone
    · rwa [Dict.expiredAt, heq] at hk
    · rw [Dict.expiredAt, hnone] at hk
      cases hk

/-- An insertion may double the table. -/
theorem insertNew_ages (h : s.table.Inv) {key value : Bytes} {expireAtMs : Int64}
    (hfit : key.length + value.length < 2 ^ 32) (habsent : s.view key = none)
    (hfresh : ¬ Past expireAtMs now) (hle : T ≤ now)
    (hins : s.insertNew key value expireAtMs now = some s') : Ages T s s' := by
  have hblock := (insertNew_of_some h hfit habsent hins).1
  obtain ⟨t', hins', hinv, hview, -, hseed, hbuckets⟩ :=
    insertNew_spec h expireAtMs now hfit habsent hblock
  rw [hins] at hins'
  cases hins'
  refine ⟨hinv, hseed, ?_, fun hwidth => ?_, Or.inl rfl, fun k hk => ?_⟩
  · show s.bucketCount ≤ t'.bucketCount
    rw [hbuckets]
    split <;> omega
  · show t'.bucketCount ≤ 2 ^ 63
    rw [hbuckets]
    split
    · next hfull => exact h.double_le hfull
    · exact hwidth
  · refine Dict.expiredAt_of_update ?_ (show Dict.expiredAt (Function.update _ _ _) T k = true by
      rw [← hview]; exact hk)
    rintro _ ⟨⟩
    exact Dict.expired_written (by simp) hfresh hle

/-- A `set` at `T` or later makes no item that has expired at `T`. -/
theorem set_ages (h : s.table.Inv) {key value : Bytes} {expireAtMs : Int64} {b : Bool}
    (hfit : key.length + value.length < 2 ^ 32) (hle : T ≤ now)
    (hset : s.set key value expireAtMs now = some (b, s')) : Ages T s s' := by
  by_cases hpast : Past expireAtMs now
  · obtain ⟨s'', hset', hleaves⟩ := set_past h key value hpast
    rw [hset] at hset'
    cases hset'
    exact hleaves.ages fun k => Dict.expiredAt_of_erase
  obtain ⟨r, s₁, hlook, hL⟩ := lookup_spec h key now
  have hlooked : Ages T s s₁ := hL.toLeaves.ages fun k => Dict.expiredAt_of_purge hle
  rcases hL.cases with ⟨rfl, hlive⟩ | ⟨p, it, -, hlive, -⟩
  · rw [set_absent hlook hpast] at hset
    simp only [Option.bind_eq_bind, Option.bind_eq_some_iff] at hset
    obtain ⟨⟨ok, s₂⟩, hroom, hset⟩ := hset
    have hroomy : Ages T s₁ s₂ := makeRoom_ages hL.table.inv hroom
    cases ok with
    | false =>
      cases hset
      exact hlooked.trans hroomy
    | true =>
      simp only [if_true, Option.bind_eq_some_iff] at hset
      obtain ⟨s₃, hins, heq⟩ := hset
      cases heq
      have habsent : s₂.view key = none :=
        (makeRoom_drops hL.table.inv hroom).absent (hL.view_key.trans hlive)
      exact (hlooked.trans hroomy).trans (insertNew_ages hroomy.inv hfit habsent hpast hle hins)
  · obtain ⟨s'', hset', hleaves⟩ := set_present h hfit hpast hlive
    rw [hset] at hset'
    cases hset'
    refine hleaves.ages fun k => Dict.expiredAt_of_update ?_
    rintro _ ⟨⟩
    refine Dict.expired_written ?_ hpast hle
    rintro _ ⟨⟩
    exact Dict.expired_eq_false_of_live hlive hle

/-- The step lemma: every call of a client at `T` or later. -/
theorem Op.ages (h : s.table.Inv) {op : Op} (hfit : op.Fits) (hle : ∀ t ∈ op.now?, T ≤ t)
    {r : Reply} (hrun : op.run s = some (r, s')) : Ages T s s' := by
  cases op with
  | find key now touch =>
    obtain ⟨s'', hrun', hleaves⟩ := run_find h key now touch
    rw [hrun] at hrun'
    cases hrun'
    refine hleaves.ages fun k hk => ?_
    cases touch with
    | true => exact Dict.expiredAt_of_purge (hle now rfl) (Dict.expiredAt_of_touch hk)
    | false => exact Dict.expiredAt_of_purge (hle now rfl) hk
  | set key value expireAtMs now =>
    simp only [Op.run, Option.bind_eq_bind, Option.bind_eq_some_iff] at hrun
    obtain ⟨⟨b, s''⟩, hset, heq⟩ := hrun
    cases heq
    exact set_ages h hfit (hle now rfl) hset
  | erase key now =>
    obtain ⟨s'', hrun', hleaves⟩ := erase_spec h key now
    simp only [Op.run, hrun', Option.bind_eq_bind, Option.bind_some] at hrun
    cases hrun
    exact hleaves.ages fun k => Dict.expiredAt_of_erase
  | setExpireAt key expireAtMs now =>
    obtain ⟨s'', hrun', hleaves⟩ := setExpireAt_spec h key expireAtMs now
    simp only [Op.run, hrun', Option.bind_eq_bind, Option.bind_some] at hrun
    cases hrun
    refine hleaves.ages fun k hk => ?_
    split at hk
    · exact Dict.expiredAt_of_erase hk
    · next hge =>
      refine Dict.expiredAt_of_update (fun it hit => ?_) hk
      obtain ⟨it₀, -, rfl⟩ := Option.map_eq_some_iff.mp hit
      have hle' : T ≤ expireAtMs := Int64.le_trans (hle now rfl) (Int64.not_lt.mp hge)
      simp [Item.expired, Int64.not_lt.mpr hle']
  | ttlMs key now =>
    obtain ⟨s'', hrun', hleaves⟩ := ttlMs_spec h key now
    simp only [Op.run, hrun', Option.bind_eq_bind, Option.bind_some] at hrun
    cases hrun
    exact hleaves.ages fun k => Dict.expiredAt_of_purge (hle now rfl)
  | clear =>
    obtain ⟨t', hclear, hb⟩ := clear_spec h
    simp only [Op.run, hclear, Option.bind_eq_bind, Option.bind_some] at hrun
    cases hrun
    have hnone : ∀ k, Dict.expiredAt t'.view T k = false := fun k => by rw [hb.view]; rfl
    refine ⟨hb.inv, hb.hashSeed, Nat.le_of_eq hb.bucketCount.symm,
      Nat.le_trans (Nat.le_of_eq hb.bucketCount), Or.inr ⟨rfl, hnone⟩, fun k hk => ?_⟩
    cases hk.symm.trans (hnone k)
  | size =>
    cases hrun
    exact Ages.rfl h

/-! ### Cycles -/

/-- No item that has expired at `T` is under a key of a lower rank than the cursor. -/
def Behind (T : Int64) (b : Nat) (t : Table) (cursor : Nat) : Prop :=
  ∀ k, Dict.expiredAt t.view T k = true → revBits b cursor ≤ Scan.rank b t.hashSeed k

/-- No item has expired at `T`. -/
def Clean (T : Int64) (t : Table) : Prop := ∀ k, Dict.expiredAt t.view T k = false

/-- What is clean stays clean. -/
theorem Clean.of_subset {t t' : Table} (h : Clean T t)
    (hsub : ∀ k, Dict.expiredAt t'.view T k = true → Dict.expiredAt t.view T k = true) :
    Clean T t' := by
  intro k
  by_contra hk
  rw [Bool.not_eq_false] at hk
  cases (h k).symm.trans (hsub k hk)

/-- What `steps` scans do. The cursor goes on to higher ranks and leaves nothing behind that has
expired at `T`, or it wraps and leaves nothing at all, if nothing was behind it at first. -/
inductive Advance (T : Int64) (b : Nat) (t : Table) (cursor : Nat) :
    (steps : Nat) → Table → (cursor' : Nat) → (wrapped : Bool) → Prop where
  | goes {steps cursor' : Nat} {t' : Table} (lt : cursor' < 2 ^ b)
      (rank : revBits b cursor' = revBits b cursor + steps)
      (behind : Behind T b t cursor → Behind T b t' cursor') :
      Advance T b t cursor steps t' cursor' false
  | wraps {steps : Nat} {t' : Table} (clean : Behind T b t cursor → Clean T t') :
      Advance T b t cursor steps t' 0 true

variable {b cursor cursor' : Nat} {t t' : Table}

/-- An advance that has not wrapped, and another. -/
theorem Advance.trans {cursor₁ n m : Nat} {t₁ : Table} {w : Bool}
    (h : Advance T b t cursor n t₁ cursor₁ false) (h' : Advance T b t₁ cursor₁ m t' cursor' w) :
    Advance T b t cursor (n + m) t' cursor' w := by
  cases h with
  | goes _ rank₁ behind₁ =>
    cases h' with
    | goes lt rank behind => exact .goes lt (by omega) fun hb => behind (behind₁ hb)
    | wraps clean => exact .wraps fun hb => clean (behind₁ hb)

/-- One scan sweeps the rank of its cursor. -/
theorem Scanned.advance {c c' : PassCount} (hle : T ≤ now)
    (h : Scanned t c now (t.chain (cursor % t.bucketCount)) t' c') (hinv : t.Inv)
    (hinv' : t'.Inv) (hb : t.bucketCount = 2 ^ b) (hwidth : b ≤ 64) :
    Advance T b t cursor 1 t' (nextCursor cursor (2 ^ b - 1))
      (decide (nextCursor cursor (2 ^ b - 1) = 0)) := by
  -- What is left and has expired was there before, at another rank.
  have hkept : ∀ k, Dict.expiredAt t'.view T k = true →
      Dict.expiredAt t.view T k = true ∧ Scan.rank b t.hashSeed k ≠ revBits b cursor := by
    intro k hk
    obtain ⟨it, hit, hx⟩ := Dict.expiredAt_iff.mp hk
    obtain ⟨hold, hnot⟩ := ((h.reapedAt hinv hinv').kept k it).mp hit
    refine ⟨Dict.expiredAt_iff.mpr ⟨it, hold, hx⟩, fun hrank => ?_⟩
    exact hnot (Item.expired_mono hle hx) cursor (List.mem_singleton_self cursor)
      ((chainedAt_iff_rank hb).mpr hrank)
  by_cases hz : nextCursor cursor (2 ^ b - 1) = 0
  · rw [decide_eq_true hz, hz]
    have hlast := (nextCursor_eq_zero_iff hwidth cursor).mp hz
    refine .wraps fun hbehind k => ?_
    by_contra hk
    rw [Bool.not_eq_false] at hk
    obtain ⟨hold, hne⟩ := hkept k hk
    have hge := hbehind k hold
    have hlt := revBits_lt b (Table.hash32 t.hashSeed k).toNat
    rw [Scan.rank] at hge hne
    omega
  · rw [decide_eq_false hz]
    have hrank := revBits_nextCursor hwidth hz
    refine .goes (nextCursor_lt hwidth cursor) hrank fun hbehind k hk => ?_
    obtain ⟨hold, hne⟩ := hkept k hk
    have hge := hbehind k hold
    rw [hrank, h.hashSeed]
    omega

/-- A pass advances by the buckets that it scans. -/
theorem PassTrace.advance {sampleLimit buckets : Nat} {c c' : PassCount} {log : List Nat}
    {w : Bool} (h : PassTrace now sampleLimit buckets t cursor c log t' cursor' c' w)
    (hle : T ≤ now) (hinv : t.Inv) (hb : t.bucketCount = 2 ^ b) (hwidth : b ≤ 64)
    (hlt : cursor < 2 ^ b) : Advance T b t cursor log.length t' cursor' w := by
  induction h with
  | bucketQuota => exact .goes hlt rfl id
  | sampleQuota _ => exact .goes hlt rfl id
  | wrapped _ scan =>
    obtain ⟨hnext, hinv₁, hsc⟩ := scanExpire_of_some hinv scan
    have hscan := hsc.advance hle hinv hinv₁ hb hwidth
    rw [hb] at hnext
    rw [← hnext] at hscan
    exact hscan
  | @scanned _ t _ _ cursor _ _ _ _ _ log _ _ scan goes rest ih =>
    obtain ⟨rfl, hinv₁, hsc⟩ := scanExpire_of_some hinv scan
    have hscan := hsc.advance hle hinv hinv₁ hb hwidth
    rw [hb] at goes ih
    rw [decide_eq_false goes] at hscan
    rw [List.length_cons, Nat.add_comm]
    exact hscan.trans (ih hinv₁ (hsc.bucketCount.trans hb) (nextCursor_lt hwidth cursor))

/-- A cycle is one advance, over all its passes. -/
theorem LoopTrace.advance {sampleLimit maxBuckets left : Nat} {r r' : ExpireCycleResult}
    {log : List Nat} (h : LoopTrace now sampleLimit maxBuckets left s r log r' s') (hle : T ≤ now)
    (hinv : s.table.Inv) (hb : s.bucketCount = 2 ^ b) (hwidth : b ≤ 64)
    (hlt : s.expireCursor < 2 ^ b) :
    ∃ w, Advance T b s.table s.expireCursor log.length s'.table s'.expireCursor w := by
  induction h with
  | passQuota => exact ⟨false, .goes hlt rfl id⟩
  | stopped pass _ => exact ⟨_, pass.advance hle hinv hb hwidth hlt⟩
  | @again _ s _ _ _ _ _ t cursor c w pass goes _ ih =>
    obtain ⟨n, hreap, -⟩ := pass.reapedAt hinv
    have hpass := pass.advance hle hinv hb hwidth hlt
    have hw : w = false := by
      cases w with
      | true => exact absurd (Or.inl rfl) goes
      | false => rfl
    subst hw
    have hcursor : cursor < 2 ^ b := by
      cases hpass with
      | goes lt => exact lt
    obtain ⟨w', hrest⟩ := ih hreap.inv (hreap.bucketCount.trans hb) hcursor
    rw [List.length_append]
    exact ⟨w', hpass.trans hrest⟩

/-- With quotas that are not zero a cycle scans a bucket. -/
theorem LoopTrace.log_pos {sampleLimit maxBuckets left : Nat} {r r' : ExpireCycleResult}
    {log : List Nat} (h : LoopTrace now sampleLimit maxBuckets (left + 1) s r log r' s')
    (hlimit : 1 ≤ sampleLimit) (hbuckets : 1 ≤ maxBuckets) : 1 ≤ log.length := by
  have hpass : ∀ {log : List Nat} {t t' : Table} {cursor cursor' : Nat} {c' : PassCount} {w : Bool},
      PassTrace now sampleLimit maxBuckets t cursor ⟨0, 0⟩ log t' cursor' c' w →
        1 ≤ log.length := by
    intro log t t' cursor cursor' c' w hpass
    cases hpass with
    | bucketQuota => exact absurd hbuckets (by decide)
    | sampleQuota reached => exact absurd (Nat.le_trans hlimit reached) (by decide)
    | wrapped => exact Nat.le_refl 1
    | scanned => exact Nat.succ_le_succ (Nat.zero_le _)
  cases h with
  | stopped pass _ => exact hpass pass
  | again pass _ _ =>
    rw [List.length_append]
    exact Nat.le_add_right_of_le (hpass pass)

/-! ### Two rounds of the cursor -/

/-- The progress of a store after `n` cycles at `T` or later. The cursor is in its first round, of
which nothing is known, in a later one, or nothing is left that has expired at `T`. -/
structure Sweeping (T : Int64) (n b : Nat) (s : Store) : Prop where
  inv : s.table.Inv
  buckets : s.bucketCount = 2 ^ b
  width : b ≤ 63
  cursor_lt : s.expireCursor < 2 ^ b
  round : n ≤ revBits b s.expireCursor ∨
    (n ≤ 2 ^ b + revBits b s.expireCursor ∧ Behind T b s.table s.expireCursor) ∨
    Clean T s.table

namespace Sweeping

variable {n : Nat}

/-- The count may begin anew at any time. -/
theorem restart (h : Sweeping T n b s) (T' : Int64) : Sweeping T' 0 b s :=
  { h with round := Or.inl (Nat.zero_le _) }

/-- Other calls keep what has been reached. -/
theorem ages (h : Sweeping T n b s) (hs : Ages T s s') : ∃ b', Sweeping T n b' s' := by
  obtain ⟨b', hb'⟩ := hs.inv.pow2
  have hgrow : b ≤ b' := by
    have hle := hs.grows
    rw [h.buckets, bucketCount, hb'] at hle
    exact (Nat.pow_le_pow_iff_right (by decide)).mp hle
  have hwidth : b' ≤ 63 := by
    have hle := hs.width (by rw [h.buckets]; exact Nat.pow_le_pow_right (by decide) h.width)
    rw [bucketCount, hb'] at hle
    exact (Nat.pow_le_pow_iff_right (by decide)).mp hle
  rcases hs.cursor with hcursor | ⟨hzero, hclean⟩
  · refine ⟨b', hs.inv, hb', hwidth, ?_, ?_⟩
    · rw [hcursor]
      exact Nat.lt_of_lt_of_le h.cursor_lt (Nat.pow_le_pow_right (by decide) hgrow)
    · have hrank := revBits_le_of_le h.cursor_lt hgrow
      have hpow : 2 ^ b ≤ 2 ^ b' := Nat.pow_le_pow_right (by decide) hgrow
      rw [hcursor]
      rcases h.round with hfirst | ⟨hlater, hbehind⟩ | hdone
      · exact Or.inl (Nat.le_trans hfirst hrank)
      · refine Or.inr (Or.inl ⟨by omega, fun k hk => ?_⟩)
        -- A wider table does not move a key past the cursor.
        have hge := hbehind k (hs.stale k hk)
        rw [Scan.rank, ← Nat.not_lt] at hge ⊢
        rw [hs.hashSeed, revBits_lt_iff_of_le h.cursor_lt hgrow]
        exact hge
      · exact Or.inr (Or.inr (hdone.of_subset hs.stale))
  · exact ⟨b', hs.inv, hb', hwidth, by rw [hzero]; exact Nat.two_pow_pos b',
      Or.inr (Or.inr hclean)⟩

/-- A cycle brings the cursor on by a rank at least, or into the next round. -/
theorem cycle (h : Sweeping T n b s) (hle : T ≤ now) {sampleLimit : Nat} (hlimit : 1 ≤ sampleLimit)
    (hquota : sampleLimit * 20 < 2 ^ 64) {r : ExpireCycleResult}
    (hrun : s.activeExpireCycle now sampleLimit = some (r, s')) : Sweeping T (n + 1) b s' := by
  obtain ⟨log, r', s'', htrace⟩ :=
    LoopTrace.exists_of_inv now sampleLimit (sampleLimit * 20) kMaxPasses h.inv ⟨0, 0⟩
  have hrun' := htrace.run
  rw [activeExpireCycle, Nat.mod_eq_of_lt hquota, hrun'] at hrun
  cases hrun
  have hpos := htrace.log_pos hlimit (by omega)
  obtain ⟨m, hreap, -, -⟩ := htrace.reapedAt h.inv
  have hb' : s'.bucketCount = 2 ^ b := hreap.bucketCount.trans h.buckets
  have hstale : ∀ k, Dict.expiredAt s'.table.view T k = true →
      Dict.expiredAt s.table.view T k = true := by
    intro k hk
    rcases hreap.toReaped.view h.inv k with heq | ⟨hnone, -⟩
    · rwa [Dict.expiredAt, heq] at hk
    · rw [Dict.expiredAt, hnone] at hk
      cases hk
  obtain ⟨w, hadvance⟩ := htrace.advance hle h.inv h.buckets (Nat.le_succ_of_le h.width) h.cursor_lt
  have hlt := revBits_lt b s.expireCursor
  generalize hcursor : s'.expireCursor = cursor' at hadvance
  cases hadvance with
  | goes lt rank behind =>
    refine ⟨hreap.inv, hb', h.width, by rwa [hcursor], ?_⟩
    rw [hcursor, rank]
    rcases h.round with hfirst | ⟨hlater, hbehind⟩ | hdone
    · exact Or.inl (by omega)
    · exact Or.inr (Or.inl ⟨by omega, behind hbehind⟩)
    · exact Or.inr (Or.inr (hdone.of_subset hstale))
  | wraps clean =>
    refine ⟨hreap.inv, hb', h.width, by rw [hcursor]; exact Nat.two_pow_pos b, ?_⟩
    rw [hcursor]
    rcases h.round with hfirst | ⟨hlater, hbehind⟩ | hdone
    · -- The second round begins, with everything ahead.
      refine Or.inr (Or.inl ⟨by omega, fun k _ => ?_⟩)
      rw [revBits_zero]
      exact Nat.zero_le _
    · exact Or.inr (Or.inr (clean hbehind))
    · exact Or.inr (Or.inr (hdone.of_subset hstale))

/-- After twice as many cycles as there are buckets, two rounds are over. -/
theorem clean (h : Sweeping T n b s) (hn : 2 * s.bucketCount ≤ n) : Clean T s.table := by
  have hlt := revBits_lt b s.expireCursor
  rw [h.buckets] at hn
  rcases h.round with hfirst | ⟨hlater, -⟩ | hdone
  · omega
  · omega
  · exact hdone

end Sweeping

/-- A new store begins its first round. -/
theorem new_sweeping {cfg : Config} {rd : UInt64} (h : Store.new cfg rd = some s) (T : Int64) :
    ∃ b, Sweeping T 0 b s := by
  simp only [Store.new, Option.bind_eq_bind, Option.bind_eq_some_iff, Option.pure_def] at h
  obtain ⟨t, ht, h⟩ := h
  cases h
  obtain ⟨hinv, -, -, -, -, hle⟩ := Table.new_spec ht
  obtain ⟨b, hb⟩ := hinv.pow2
  rw [hb] at hle
  exact ⟨b, hinv, hb, (Nat.pow_le_pow_iff_right (by decide)).mp hle, Nat.two_pow_pos b,
    Or.inl (Nat.zero_le _)⟩

end Store

end TinyRedis

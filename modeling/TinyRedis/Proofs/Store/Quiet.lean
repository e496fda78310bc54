import TinyRedis.Lib.Run
import TinyRedis.Proofs.Store.Capacity

/-!
# `TinyRedis.Proofs.Store.Quiet`: active expiry is unobservable

A store that never fills up is a dictionary without a cap, and `Dict.step` says what each call does
to it. Two dictionaries that agree on the live items from some time on (`Agree`) give equal replies
at every later time, and agree afterwards. An expire cycle removes expired items only, so the
dictionary after it agrees with the one before it. A run with expire cycles in it and the same run
without them therefore give the same replies.

* `Dict.Agree`: the same live items, now and at every later time.
* `Agree.step`: equal replies, and agreement afterwards.
* `Quiet`: a store whose keys are among fewer than it may hold.
* `Quiet.step`, `Quiet.cycle`: the store follows its dictionary, and a cycle keeps agreement.
* `runCalls_eq`: a run and the same run without its cycles, call by call.
* `expireCycles_unobservable`: so their replies are equal.

The count of the keys can tell the difference, so runs that ask for the size are left out. So are
clocks that go back: an item that has been removed would be live again.
-/

set_option autoImplicit false

namespace TinyRedis

open Lib

/-- An expired item stays expired. -/
theorem Item.expired_mono {it : Item} {now now' : Int64} (hle : now ≤ now')
    (h : it.expired now = true) : it.expired now' = true := by
  unfold expired at *
  split at h
  · cases h
  · next hno =>
    rw [if_neg hno]
    rw [decide_eq_true_eq] at *
    exact Int64.lt_of_lt_of_le h hle

namespace Dict

variable {v w : Dict} {key : Bytes} {now now' : Int64}

/-- The live items of an updated dictionary. -/
theorem live_update (o : Option Item) (k : Bytes) :
    live (Function.update v key o) k now
      = if k = key then o.filter (fun it => !it.expired now) else v.live k now := by
  unfold live
  by_cases hk : k = key
  · subst hk
    simp
  · simp [hk]

/-- The two dictionaries have the same live items from `now` on. -/
def Agree (now : Int64) (v w : Dict) : Prop :=
  ∀ k now', now ≤ now' → v.live k now' = w.live k now'

namespace Agree

/-- Agreement is about the times to come. -/
theorem mono (h : Agree now v w) (hle : now ≤ now') : Agree now' v w :=
  fun k now'' hle' => h k now'' (Int64.le_trans hle hle')

/-- Equal writes keep the agreement. -/
theorem update (h : Agree now v w) (key : Bytes) (o : Option Item) :
    Agree now (Function.update v key o) (Function.update w key o) := by
  intro k now' hle
  rw [live_update, live_update, h k now' hle]

/-- At a later time the dictionaries still agree, and show the same live item. -/
theorem at_time (h : Agree now v w) (key : Bytes) {t : Int64} (hle : now ≤ t) :
    Agree t v w ∧ v.live key t = w.live key t :=
  ⟨h.mono hle, h key t hle⟩

/-- Dictionaries that agree do so after both have purged a key. -/
theorem purge (h : Agree now v w) (key : Bytes) :
    Agree now (v.purge key now) (w.purge key now) := by
  unfold Dict.purge
  rw [h key now (Int64.le_refl now)]
  exact h.update key _

/-- Dictionaries that agree do so after both have purged a key and marked it as used. -/
theorem touch (h : Agree now v w) (key : Bytes) :
    Agree now ((v.purge key now).touch key now) ((w.purge key now).touch key now) := by
  unfold Dict.touch
  rw [purge_self, purge_self, h key now (Int64.le_refl now)]
  exact (h.purge key).update key _

end Agree

/-- The reply and the dictionary after a call, where there is no cap. -/
def step (v : Dict) : Store.Op → Reply × Dict
  | .find key now touch =>
      (.value ((v.live key now).map Item.value),
        if touch then (v.purge key now).touch key now else v.purge key now)
  | .set key value expireAtMs now =>
      (.bool true, if Store.Past expireAtMs now then v.erase key
        else Function.update v key (some (written (v.live key now) value expireAtMs now)))
  | .erase key now => (.bool (v.live key now).isSome, v.erase key)
  | .setExpireAt key expireAtMs now =>
      (.bool (v.live key now).isSome, if expireAtMs < now then v.erase key
        else Function.update v key ((v.live key now).map fun it =>
          { it with expiresAtMs := expireAtMs, lruClock := clock32 now }))
  | .ttlMs key now => (.ttl (Store.ttlOf (v.live key now) now).toInt, v.purge key now)
  | .clear => (.done, fun _ => none)
  | .size => (.done, v)

/-- A call at `now` sees the live items only. -/
theorem Agree.step (h : Agree now v w) {op : Store.Op} (hnow : ∀ t ∈ op.now?, now ≤ t) :
    (v.step op).1 = (w.step op).1 ∧
      Agree (op.now?.getD now) (v.step op).2 (w.step op).2 := by
  cases op with
  | find key t touch =>
    obtain ⟨ht, hlive⟩ := h.at_time key (hnow t rfl)
    refine ⟨by simp only [Dict.step, hlive], ?_⟩
    cases touch with
    | true => exact ht.touch key
    | false => exact ht.purge key
  | set key value expireAtMs t =>
    obtain ⟨ht, hlive⟩ := h.at_time key (hnow t rfl)
    refine ⟨rfl, ?_⟩
    simp only [Dict.step, hlive]
    split
    · exact ht.update key none
    · exact ht.update key _
  | erase key t =>
    obtain ⟨ht, hlive⟩ := h.at_time key (hnow t rfl)
    exact ⟨by simp only [Dict.step, hlive], ht.update key none⟩
  | setExpireAt key expireAtMs t =>
    obtain ⟨ht, hlive⟩ := h.at_time key (hnow t rfl)
    refine ⟨by simp only [Dict.step, hlive], ?_⟩
    simp only [Dict.step, hlive]
    split
    · exact ht.update key none
    · exact ht.update key _
  | ttlMs key t =>
    obtain ⟨ht, hlive⟩ := h.at_time key (hnow t rfl)
    exact ⟨by simp only [Dict.step, hlive], ht.purge key⟩
  | clear => exact ⟨rfl, fun _ _ _ => rfl⟩
  | size => exact ⟨rfl, h⟩

end Dict

variable [EntryPool]

/-- An expire cycle keeps the live items. -/
theorem Store.Reaped.agree {t t' : Table} {now : Int64} {n : Nat} (h : Store.Reaped t now n t')
    (hinv : t.Inv) : Dict.Agree now t.view t'.view := by
  intro k now' hle
  rcases h.view hinv k with heq | ⟨hnone, it, hit, hx⟩
  · rw [Dict.live, Dict.live, heq]
  · rw [Dict.live_of_expired hit (Item.expired_mono hle hx), Dict.live_eq_none_of_none hnone]

namespace Store

/-- A store without eviction whose keys are among the fewer than `maxKeys` keys of `K`. -/
structure Quiet (K : Finset Bytes) (s : Store) : Prop where
  inv : s.table.Inv
  maxKeys_le : s.maxKeys ≤ kPoolCapacity
  few : K.card < s.maxKeys
  keys : ∀ k, (s.view k).isSome → k ∈ K

namespace Quiet

variable {K : Finset Bytes} {s s' : Store}

/-- A quiet store is not full. -/
theorem size_lt (h : Quiet K s) : s.size < s.maxKeys := by
  have hle : s.table.keys.card ≤ K.card := by
    refine Finset.card_le_card fun k hk => h.keys k ?_
    rwa [Table.mem_keys h.inv.toBase] at hk
  rw [Table.card_keys h.inv.toBase] at hle
  exact Nat.lt_of_le_of_lt hle h.few

/-- A call that adds no new key leaves the store quiet. -/
theorem leaves {v : Dict} {n : Nat} (h : Quiet K s) (hs : Leaves s s' v n)
    (hsub : ∀ k, (v k).isSome → k ∈ K) : Quiet K s' where
  inv := hs.table.inv
  maxKeys_le := by rw [hs.rest]; exact h.maxKeys_le
  few := by rw [hs.rest]; exact h.few
  keys := by rw [view, hs.table.view]; exact hsub

/-- A purge adds no key. -/
theorem purge (h : Quiet K s) (key : Bytes) (now : Int64) :
    ∀ k, (s.view.purge key now k).isSome → k ∈ K :=
  fun k hk => h.keys k (Dict.isSome_of_purge hk)

/-- An erasure adds no key. -/
theorem erase (h : Quiet K s) (key : Bytes) : ∀ k, (s.view.erase key k).isSome → k ∈ K :=
  fun k hk => h.keys k (Dict.isSome_of_erase hk)

/-- A write at a key of `K` stays in `K`. -/
theorem update (h : Quiet K s) {key : Bytes} {o : Option Item} (hkey : o.isSome → key ∈ K) :
    ∀ k, (Function.update s.view key o k).isSome → k ∈ K := by
  intro k hk
  by_cases hkk : k = key
  · subst hkk
    rw [Function.update_self] at hk
    exact hkey hk
  · rw [Function.update_of_ne hkk] at hk
    exact h.keys k hk

/-- `set` of a key of `K` is never refused. -/
theorem set (h : Quiet K s) {key value : Bytes} (expireAtMs now : Int64)
    (hfit : key.length + value.length < 2 ^ 32) (hkey : key ∈ K) :
    ∃ s', s.set key value expireAtMs now = some (true, s') ∧ Quiet K s' ∧
      s'.view = (s.view.step (.set key value expireAtMs now)).2 := by
  by_cases hp : Past expireAtMs now
  · obtain ⟨s', hset, hs⟩ := set_past h.inv key value hp
    exact ⟨s', hset, h.leaves hs (h.erase key), by
      rw [view, hs.table.view, Dict.step, if_pos hp]⟩
  · simp only [Dict.step, if_neg hp]
    cases hlive : s.view.live key now with
    | some it =>
      obtain ⟨s', hset, hs⟩ := set_present h.inv hfit hp hlive
      exact ⟨s', hset, h.leaves hs (h.update fun _ => hkey), hs.table.view⟩
    | none =>
      obtain ⟨r, s₁, hlook, hL⟩ := lookup_spec h.inv key now
      have h₁ := h.leaves hL.toLeaves (h.purge key now)
      have habsent : s₁.view key = none := by rw [hL.view_key, hlive]
      obtain rfl := hL.eq_none hlive
      -- There is room: the keys ever set are fewer than the cap.
      have hlt := h₁.size_lt
      have hroom : s₁.makeRoom now = some (true, s₁) := if_neg (Nat.not_le.mpr hlt)
      obtain ⟨t', hins, hinv, hview, -⟩ := insertNew_spec h₁.inv expireAtMs now hfit habsent
        (Nat.lt_of_lt_of_le hlt h₁.maxKeys_le)
      have hview' : t'.view = Function.update s.view key
          (some (Dict.written none value expireAtMs now)) := by
        rw [hview, view, hL.table.view, Dict.update_purge]
      refine ⟨{ s₁ with table := t' }, ?_,
        ⟨hinv, h₁.maxKeys_le, h₁.few, fun k hk => ?_⟩, hview'⟩
      · rw [set_absent hlook hp, hroom]
        simp [hins]
      · have hk' : (t'.view k).isSome := hk
        rw [hview'] at hk'
        exact h.update (fun _ => hkey) k hk'

/-- The step lemma: a call answers and leaves what `Dict.step` says. -/
theorem step (h : Quiet K s) {op : Op} (hfit : op.Fits) (hsize : op ≠ .size)
    (hkey : ∀ key ∈ op.setKey?, key ∈ K) :
    ∃ s', op.run s = some ((s.view.step op).1, s') ∧ Quiet K s' ∧
      s'.view = (s.view.step op).2 := by
  cases op with
  | find key now touch =>
    obtain ⟨s', hrun, hs⟩ := run_find h.inv key now touch
    refine ⟨s', hrun, h.leaves hs ?_, hs.table.view⟩
    cases touch with
    | true => exact fun k hk => h.purge key now k (Dict.isSome_of_touch hk)
    | false => exact h.purge key now
  | set key value expireAtMs now =>
    obtain ⟨s', hset, hq, hview⟩ := h.set expireAtMs now hfit (hkey key rfl)
    exact ⟨s', by simp [Op.run, hset, Dict.step], hq, hview⟩
  | erase key now =>
    obtain ⟨s', hrun, hs⟩ := erase_spec h.inv key now
    exact ⟨s', by simp [Op.run, hrun, Dict.step], h.leaves hs (h.erase key), hs.table.view⟩
  | setExpireAt key expireAtMs now =>
    obtain ⟨s', hrun, hs⟩ := setExpireAt_spec h.inv key expireAtMs now
    refine ⟨s', by simp [Op.run, hrun, Dict.step], h.leaves hs ?_, hs.table.view⟩
    split
    · exact h.erase key
    · refine h.update fun hsome => h.keys key ?_
      rw [Option.isSome_map] at hsome
      obtain ⟨it, hit⟩ := Option.isSome_iff_exists.mp hsome
      exact Dict.isSome_of_live hit
  | ttlMs key now =>
    obtain ⟨s', hrun, hs⟩ := ttlMs_spec h.inv key now
    exact ⟨s', by simp [Op.run, hrun, Dict.step], h.leaves hs (h.purge key now), hs.table.view⟩
  | clear =>
    obtain ⟨t', hrun, hb⟩ := clear_spec h.inv
    refine ⟨{ s with table := t', expireCursor := 0 }, by simp [Op.run, hrun, Dict.step],
      ⟨hb.inv, h.maxKeys_le, h.few, fun k hk => ?_⟩, hb.view⟩
    rw [view, hb.view] at hk
    cases hk
  | size => exact absurd rfl hsize

/-- An expire cycle stays quiet and keeps the live items. -/
theorem cycle (h : Quiet K s) (now : Int64) (sampleLimit : Nat) :
    ∃ r s', s.activeExpireCycle now sampleLimit = some (r, s') ∧ Quiet K s' ∧
      Dict.Agree now s.view s'.view := by
  obtain ⟨r, t', cursor', hrun, hr⟩ := activeExpireCycle_spec h.inv now sampleLimit
  refine ⟨r, _, hrun, ⟨hr.inv, h.maxKeys_le, h.few, fun k hk => h.keys k ?_⟩, hr.agree h.inv⟩
  have hk' : (t'.view k).isSome := hk
  rcases hr.view h.inv k with heq | ⟨hnone, -⟩
  · rw [heq] at hk'
    exact hk'
  · rw [hnone] at hk'
    cases hk'

end Quiet

/-! ### Runs with expire cycles in them -/

/-- The call of a client. -/
def Call.op? : Call → Option Op
  | .client op => some op
  | .activeExpireCycle _ _ => none

/-- The time of a call, or of a cycle. -/
def Call.now? : Call → Option Int64
  | .client op => op.now?
  | .activeExpireCycle now _ => some now

/-- The key that the call may add. -/
def Call.setKey? (call : Call) : Option Bytes := call.op?.bind Op.setKey?

/-- The replies to the clients in a run with expire cycles, and the store after it. -/
def runCalls : Store → List Call → Option (List Reply × Store)
  | s, [] => some ([], s)
  | s, .client op :: calls => do
      let (reply, s) ← op.run s
      let (replies, s) ← runCalls s calls
      return (reply :: replies, s)
  | s, .activeExpireCycle now sampleLimit :: calls => do
      let (_, s) ← s.activeExpireCycle now sampleLimit
      runCalls s calls

omit [EntryPool] in
/-- What nondecreasing times from `now` on say of the first call, and of the calls after it. -/
theorem times_cons {call : Call} {calls : List Call} {now : Int64}
    (hlater : ∀ t ∈ (call :: calls).filterMap Call.now?, now ≤ t)
    (hsorted : ((call :: calls).filterMap Call.now?).Pairwise (· ≤ ·)) :
    (∀ t ∈ call.now?, now ≤ t) ∧ (∀ t ∈ calls.filterMap Call.now?, call.now?.getD now ≤ t) ∧
      (calls.filterMap Call.now?).Pairwise (· ≤ ·) := by
  refine ⟨fun t ht => hlater t (List.mem_filterMap.mpr ⟨call, List.mem_cons_self, ht⟩), ?_⟩
  cases ht : call.now? with
  | none =>
    rw [List.filterMap_cons_none ht] at hlater hsorted
    exact ⟨hlater, hsorted⟩
  | some t =>
    rw [List.filterMap_cons_some ht] at hsorted
    exact List.pairwise_cons.mp hsorted

/-- The run lemma: from stores that agree, the run with the cycles and the run without them give
the same replies. -/
theorem runCalls_eq {K : Finset Bytes} {calls : List Call} :
    ∀ {s w : Store} {now : Int64}, Quiet K s → Quiet K w → Dict.Agree now s.view w.view →
      (∀ call ∈ calls, call.Fits ∧ call ≠ .client .size) →
      (∀ key ∈ calls.filterMap Call.setKey?, key ∈ K) →
      (∀ t ∈ calls.filterMap Call.now?, now ≤ t) →
      (calls.filterMap Call.now?).Pairwise (· ≤ ·) →
      ∃ replies s' w', runCalls s calls = some (replies, s') ∧
        outputsM Op.run w (calls.filterMap Call.op?) = some (replies, w') := by
  induction calls with
  | nil =>
    intro s w now _ _ _ _ _ _ _
    exact ⟨[], s, w, rfl, rfl⟩
  | cons call calls ih =>
    intro s w now hs hw hagree hok hkeys hlater hsorted
    have hok' : ∀ c ∈ calls, c.Fits ∧ c ≠ .client .size :=
      fun c hc => hok c (List.mem_cons_of_mem call hc)
    have hkeys' : ∀ key ∈ calls.filterMap Call.setKey?, key ∈ K := fun key hk =>
      hkeys key (((List.sublist_cons_self call calls).filterMap Call.setKey?).subset hk)
    obtain ⟨hfit, hsize⟩ := hok call List.mem_cons_self
    obtain ⟨hnow, hlater', hsorted'⟩ := times_cons hlater hsorted
    cases call with
    | activeExpireCycle t sampleLimit =>
      -- The cycle runs on the one side only. It takes items that are expired from `t` on.
      obtain ⟨r, s₁, hrun, hs₁, hcycle⟩ := hs.cycle t sampleLimit
      have hagree₁ : Dict.Agree t s₁.view w.view := fun k now' hle =>
        (hcycle k now' hle).symm.trans (hagree.mono (hnow t rfl) k now' hle)
      obtain ⟨replies, s', w', hrs, hrw⟩ := ih hs₁ hw hagree₁ hok' hkeys' hlater' hsorted'
      exact ⟨replies, s', w', by simp [runCalls, hrun, hrs], hrw⟩
    | client op =>
      have hkey : ∀ key ∈ op.setKey?, key ∈ K := fun key hk => hkeys key
        (List.mem_filterMap.mpr ⟨_, List.mem_cons_self, hk⟩)
      have hop : op ≠ .size := fun heq => hsize (by rw [heq])
      -- Both sides make the call, and it sees live items only.
      obtain ⟨s₁, hrun₁, hs₁, hview₁⟩ := hs.step hfit hop hkey
      obtain ⟨w₁, hrun₂, hw₁, hview₂⟩ := hw.step hfit hop hkey
      obtain ⟨hreply, hagree₁⟩ := hagree.step hnow
      rw [← hview₁, ← hview₂] at hagree₁
      -- The time of the agreement is that of the call, or the one before where it has none.
      obtain ⟨replies, s', w', hrs, hrw⟩ := ih hs₁ hw₁ hagree₁ hok' hkeys' hlater' hsorted'
      refine ⟨(s.view.step op).1 :: replies, s', w', by simp [runCalls, hrun₁, hrs], ?_⟩
      rw [List.filterMap_cons_some (show Call.op? (.client op) = some op from rfl)]
      simp [outputsM, hrun₂, hrw, hreply]

/-- Expire cycles change no reply, at any points of a run at nondecreasing times in which fewer
than `maxKeys` distinct keys are ever set. -/
theorem expireCycles_unobservable {cfg : Config} {rd : UInt64} {s₀ : Store} {calls : List Call}
    (hmax : cfg.maxKeys ≤ kPoolCapacity) (hnew : Store.new cfg rd = some s₀)
    (hcalls : ∀ call ∈ calls, call.Fits ∧ call ≠ .client .size)
    (htimes : (calls.filterMap Call.now?).Pairwise (· ≤ ·))
    (hkeys : (calls.filterMap Call.setKey?).toFinset.card
      < resolveMaxKeys cfg.maxKeys) :
    ∃ replies s w, runCalls s₀ calls = some (replies, s) ∧
      outputsM Op.run s₀ (calls.filterMap Call.op?) = some (replies, w) := by
  obtain ⟨hinv, hview, -, -, hm, -⟩ := new_spec hnew
  have hcap := (resolveMaxKeys_bounds hmax).2
  have hquiet : Quiet (calls.filterMap Call.setKey?).toFinset s₀ :=
    ⟨hinv, by rw [hm]; exact hcap, by rw [hm]; exact hkeys, fun k hk => by simp [hview] at hk⟩
  exact runCalls_eq hquiet hquiet (fun _ _ _ => rfl) hcalls
    (fun key hk => List.mem_toFinset.mpr hk) (fun t _ => Int64.minValue_le t) htimes

omit [EntryPool] in
/-- A cycle between a deadline and the next use of its key. -/
theorem expireCycles_unobservable_reaped : letI := slabPool
    let calls : List Call := [.client (.set [1] [2] 50 10), .activeExpireCycle 60 20,
      .client (.find [1] 60 true), .client (.set [1] [3] (-2) 70), .client (.ttlMs [1] 80)]
    ∃ s₀ replies s w, Store.new { seed := 7, initialBuckets := 4 } 0 = some s₀ ∧
      runCalls s₀ calls = some (replies, s) ∧
      outputsM Op.run s₀ (calls.filterMap Call.op?) = some (replies, w) := by
  let _ := slabPool
  intro calls
  have hmax : ({ seed := 7, initialBuckets := 4 } : Config).maxKeys ≤ kPoolCapacity := by decide
  obtain ⟨s₀, hnew⟩ := new_isSome 0
    (show ({ seed := 7, initialBuckets := 4 } : Config).initialBuckets ≤ 2 ^ 63 by decide) hmax
  obtain ⟨replies, s, w, hs, hw⟩ := expireCycles_unobservable hmax hnew
    (show ∀ call ∈ calls, call.Fits ∧ call ≠ .client .size by decide) (by decide) (by decide)
  exact ⟨s₀, replies, s, w, hnew, hs, hw⟩

end Store

end TinyRedis

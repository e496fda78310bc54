import TinyRedis.Proofs.Store.Outcomes

/-!
# `TinyRedis.Proofs.Store.Ledger`: every entry that leaves is accounted for once

An entry enters by a `set` of a new key. It leaves because its caller asks for it, with a `clear`,
or on the store's own account, and then it counts as an expiry if it had expired and as an eviction
if not. `Turn.balance` is this for one call, and `run_ledger` the law over whole runs.

* `Call.lost`: the keys that a call loses on the store's own account.
* `tally`: how many keys the calls of a run have brought in, or taken out.
* `Turn.lost_eq`, `Turn.counts`: what is lost is what the counters count.
* `tally_balance`: the sum over a run, by induction on its calls.
* `run_ledger`: the size of the store is what came in less what went out, and each counter is the
  number of the entries of its kind.

A `set` with a past deadline removes its key and brings none in. It is a removal that the caller has
asked for, and is not counted as an expiry unless the item had expired before.
-/

set_option autoImplicit false

namespace TinyRedis

open Lib

variable [EntryPool]

namespace Store

/-- The entries that leave on the store's own account: those that are there before the call and
not after it, but for a new one under an old key, and that nobody asked to take out. -/
def Call.lost (s s' : Store) (call : Call) : Finset Bytes :=
  (s.keys \ (s'.keys \ call.inserted s)) \ (call.requested s ∪ call.cleared s)

/-- What the calls of a run enter, call by call. -/
def tally (entry : Store → Call → Finset Bytes) : Store → List Call → Nat
  | _, [] => 0
  | s, call :: calls =>
      (entry s call).card + ((call.run s).map fun s' => tally entry s' calls).getD 0

namespace Turn

variable {now : Int64} {s s₁ s' : Store} {out in_ : Finset Bytes}

/-- What a call loses is what the store drops before the call does its own work. -/
theorem lost_eq (h : Turn now s s₁ out in_ s') (hinv : s.table.Inv) :
    (s.keys \ (s'.keys \ in_)) \ out = s.keys \ s₁.keys := by
  have hsub := h.drops.keys_subset hinv
  ext k
  have hout := @h.out_subset k
  have hin : k ∈ in_ → k ∉ s₁.keys := fun hk => Finset.disjoint_left.mp h.in_disjoint hk
  simp only [h.keys, Finset.mem_sdiff, Finset.mem_union]
  constructor
  · rintro ⟨⟨hk, hnot⟩, hnout⟩
    refine ⟨hk, fun hk₁ => hnot ⟨Or.inl ⟨hk₁, hnout⟩, fun hk_in => hin hk_in hk₁⟩⟩
  · rintro ⟨hk, hnot⟩
    refine ⟨⟨hk, ?_⟩, fun hk_out => hnot (hout hk_out)⟩
    rintro ⟨⟨hk₁, -⟩ | hk_in, hk_nin⟩
    · exact hnot hk₁
    · exact hk_nin hk_in

/-- The counters have gone up by what was lost, each by its own kind. -/
theorem counts (h : Turn now s s₁ out in_ s') (hinv : s.table.Inv) :
    s'.evictions = s.evictions + (((s.keys \ (s'.keys \ in_)) \ out).filter
        fun k => s.view.expiredAt now k = false).card ∧
      s'.expiredKeys = s.expiredKeys + (((s.keys \ (s'.keys \ in_)) \ out).filter
        fun k => s.view.expiredAt now k = true).card := by
  rw [h.lost_eq hinv, h.evictions, h.expiredKeys]
  exact ⟨h.drops.evictions, h.drops.expiredKeys⟩

/-- The balance of one call. -/
theorem balance (h : Turn now s s₁ out in_ s') (hinv : s.table.Inv) :
    s.size + s.evictions + s.expiredKeys + in_.card
      = s'.size + s'.evictions + s'.expiredKeys + out.card := by
  -- What the store drops, all of it expired or not.
  have hdropped := Finset.card_sdiff_add_card_eq_card (h.drops.keys_subset hinv)
  have hsplit := Finset.card_filter_add_card_filter_not (s := s.keys \ s₁.keys)
    (fun k => s.view.expiredAt now k = false)
  simp only [Bool.not_eq_false] at hsplit
  -- What the call takes out and puts in.
  have hkeys : s'.keys.card = (s₁.keys \ out).card + in_.card := by
    rw [h.keys, Finset.card_union_of_disjoint]
    exact Finset.disjoint_of_subset_left Finset.sdiff_subset h.in_disjoint.symm
  have hout := Finset.card_sdiff_add_card_eq_card h.out_subset
  have hevictions := h.drops.evictions
  have hexpired := h.drops.expiredKeys
  rw [← h.evictions] at hevictions
  rw [← h.expiredKeys] at hexpired
  rw [← card_keys hinv, ← card_keys h.inv]
  omega

end Turn

/-- No call both takes a key out on request and clears the store. -/
theorem Call.card_out (s : Store) (call : Call) :
    (call.requested s ∪ call.cleared s).card = (call.requested s).card + (call.cleared s).card := by
  refine Finset.card_union_of_disjoint ?_
  cases call with
  | activeExpireCycle now sampleLimit => exact Finset.disjoint_empty_left _
  | client op => cases op <;> simp [Call.requested, Call.cleared]

/-- The law over a run. -/
theorem tally_balance {calls : List Call} (hfit : ∀ call ∈ calls, call.Fits) :
    ∀ {s₀ s : Store}, Sound s₀ → calls.foldlM Call.run s₀ = some s →
      s₀.size + s₀.evictions + s₀.expiredKeys + tally Call.inserted s₀ calls
        = s.size + s.evictions + s.expiredKeys + tally Call.requested s₀ calls
          + tally Call.cleared s₀ calls := by
  induction calls with
  | nil =>
    intro s₀ s hs hrun
    cases hrun
    rfl
  | cons call calls ih =>
    intro s₀ s hs hrun
    rw [List.foldlM_cons] at hrun
    obtain ⟨s', hcall, hrest⟩ := Option.bind_eq_some_iff.mp hrun
    obtain ⟨s₁, hturn⟩ := Call.turn hs.inv (hfit call List.mem_cons_self) hcall
    have hstep := hturn.balance hs.inv
    rw [Call.card_out] at hstep
    have htail := ih (fun c hc => hfit c (List.mem_cons_of_mem call hc)) (hturn.sound hs) hrest
    simp only [tally, hcall, Option.map_some, Option.getD_some]
    omega

/-- Every removal is accounted for once. Under any configuration, after any run the new keys that
`set` has stored are those that are there, that were evicted, that expired, that were taken out on
request and that were cleared. Whatever the call that comes next, what it counts as evictions are
the entries it loses that had not expired, and what it counts as expiries those that had. With a
valid configuration every run is defined. -/
theorem run_ledger {cfg : Config} {rd : UInt64} {s₀ : Store} {calls : List Call}
    (hnew : Store.new cfg rd = some s₀) (hfit : ∀ call ∈ calls, call.Fits) :
    (∀ s, calls.foldlM Call.run s₀ = some s →
      tally Call.inserted s₀ calls
        = s.size + s.evictions + s.expiredKeys + tally Call.requested s₀ calls
          + tally Call.cleared s₀ calls ∧
      ∀ (call : Call) (s' : Store), call.Fits → call.run s = some s' →
        s'.evictions = s.evictions
          + ((call.lost s s').filter fun k => s.view.expiredAt call.now k = false).card ∧
        s'.expiredKeys = s.expiredKeys
          + ((call.lost s s').filter fun k => s.view.expiredAt call.now k = true).card) ∧
    (cfg.maxKeys ≤ kPoolCapacity → 1 ≤ cfg.lruSamples → cfg.lruSamples ≤ 64 →
      ∃ s, calls.foldlM Call.run s₀ = some s) := by
  constructor
  · intro s hrun
    have hsound := Sound.new hnew
    have hlaw := tally_balance hfit hsound hrun
    have hempty : s₀.size = 0 ∧ s₀.evictions = 0 ∧ s₀.expiredKeys = 0 := by
      obtain ⟨-, -, hsize, -⟩ := new_spec hnew
      simp only [Store.new, Option.bind_eq_bind, Option.bind_eq_some_iff] at hnew
      obtain ⟨t, -, heq⟩ := hnew
      cases heq
      exact ⟨hsize, rfl, rfl⟩
    refine ⟨by omega, fun call s' hcall hrun' => ?_⟩
    have hs := (hsound.run hfit hrun).1
    obtain ⟨s₁, hturn⟩ := Call.turn hs.inv hcall hrun'
    exact hturn.counts hs.inv
  · intro hmax hsamples hsamples'
    obtain ⟨s, hrun, -⟩ := (Cap.new hmax hsamples hsamples' hnew).run hfit
    exact ⟨s, hrun⟩

omit [EntryPool] in
/-- A store of three keys, and seven that are stored one after another: two are evicted, one is
erased, one expires, two are cleared, and the last is there. -/
theorem run_ledger_three : letI := slabPool
    let cfg : Config := { maxKeys := 3, seed := 7, initialBuckets := 4, policy := .kAllKeysLru }
    let calls : List Call := [.client (.set [1] [2] (-1) 10), .client (.set [2] [3] (-1) 20),
      .client (.set [3] [4] (-1) 21), .client (.set [4] [5] 40 22), .client (.set [5] [6] (-1) 24),
      .client (.erase [3] 25), .client (.set [6] [7] (-1) 26), .activeExpireCycle 41 20,
      .client .clear, .client (.set [7] [8] (-1) 42)]
    ∃ s₀ s, Store.new cfg 0 = some s₀ ∧ calls.foldlM Call.run s₀ = some s ∧
      tally Call.inserted s₀ calls
        = s.size + s.evictions + s.expiredKeys + tally Call.requested s₀ calls
          + tally Call.cleared s₀ calls ∧
      s.size = 1 ∧ s.evictions = 2 ∧ s.expiredKeys = 1 ∧ tally Call.requested s₀ calls = 1 ∧
      tally Call.cleared s₀ calls = 2 := by
  let _ := slabPool
  intro cfg calls
  have hfit : ∀ call ∈ calls, call.Fits := by decide
  obtain ⟨s₀, s, hnew, hrun, hs⟩ := exists_run cfg 0 calls
    (fun s₀ s => decide (s.size = 1 ∧ s.evictions = 2 ∧ s.expiredKeys = 1 ∧
      tally Call.requested s₀ calls = 1 ∧ tally Call.cleared s₀ calls = 2)) (by decide +kernel)
  exact ⟨s₀, s, hnew, hrun, ((run_ledger hnew hfit).1 s hrun).1, of_decide_eq_true hs⟩

end Store

end TinyRedis

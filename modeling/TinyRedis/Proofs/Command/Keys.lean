import Mathlib.Data.List.Perm.Basic
import TinyRedis.Core.Command
import TinyRedis.Proofs.Store.Outcomes

/-!
# `TinyRedis.Proofs.Command.Keys`: DEL and EXISTS over many keys

Each step of a key loop changes the store that the next one reads. What the whole loop does still
has a closed form over the dictionary that it started from: DEL erases every key of the list and
counts the live ones once each (`delStep_loop`), EXISTS purges them and counts the live ones as
often as they are listed (`existsStep_loop`). Neither form depends on the order of the list.

* `Dict.eraseAll`, `Dict.purgeAll`: a dictionary after the keys have been erased, or looked up.
* `Dict.liveKeys`, `Dict.liveCount`: the live keys as a set, and as often as they are listed.
* `delStep_counted`, `existsStep_counted`: one round of a loop keeps the closed form.
* `cmdDel_eq`, `cmdExists_eq`: the handlers, from their loops.
* `del_exists_keys`: both, with the count as an integer, for any order of the keys.

A key that DEL has erased is not live any more when the list names it again, so it is counted once.
EXISTS removes only what has expired, so a live key stays live and is counted every time.
-/

set_option autoImplicit false

namespace TinyRedis

open Lib

namespace Dict

/-- The keys are deleted. -/
def eraseAll (v : Dict) (keys : List Bytes) : Dict := fun k => if k ∈ keys then none else v k

/-- The keys whose deadline has passed are deleted. -/
def purgeAll (v : Dict) (keys : List Bytes) (now : Int64) : Dict := fun k =>
  if k ∈ keys then v.live k now else v k

/-- The different live keys of a list. -/
def liveKeys (v : Dict) (keys : List Bytes) (now : Int64) : Finset Bytes :=
  keys.toFinset.filter fun k => (v.live k now).isSome

/-- How often a list names a live key. -/
def liveCount (v : Dict) (keys : List Bytes) (now : Int64) : Nat :=
  keys.countP fun k => (v.live k now).isSome

variable {v : Dict} {keys : List Bytes} {key : Bytes} {now : Int64}

/-- Erasing one more key. -/
theorem erase_eraseAll : (v.eraseAll keys).erase key = v.eraseAll (keys ++ [key]) := by
  funext k
  by_cases hk : k = key
  · subst hk
    simp [erase, eraseAll]
  · simp [erase, eraseAll, hk]

/-- An erased key is not live, and the others are as before. -/
theorem live_eraseAll :
    (v.eraseAll keys).live key now = if key ∈ keys then none else v.live key now := by
  unfold live eraseAll
  split <;> rfl

/-- A lookup changes nothing about what is live. -/
theorem live_purgeAll : (v.purgeAll keys now).live key now = v.live key now := by
  unfold live purgeAll
  split
  · rw [live, Option.filter_filter]
    simp
  · rfl

/-- Purging one more key. -/
theorem purge_purgeAll : (v.purgeAll keys now).purge key now = v.purgeAll (keys ++ [key]) now := by
  funext k
  by_cases hk : k = key
  · subst hk
    rw [purge_self, live_purgeAll]
    simp [purgeAll]
  · simp [purge, purgeAll, hk]

/-- A key counts once. -/
theorem card_liveKeys_append :
    (v.liveKeys (keys ++ [key]) now).card
      = (v.liveKeys keys now).card + if ((v.eraseAll keys).live key now).isSome then 1 else 0 := by
  have happend : (keys ++ [key]).toFinset = insert key keys.toFinset := by
    ext k
    simp
  rw [live_eraseAll, liveKeys, liveKeys, happend, Finset.filter_insert]
  by_cases hmem : key ∈ keys
  · -- It was erased when it was first named.
    rw [if_pos hmem]
    split
    · next hlive =>
      rw [Finset.insert_eq_of_mem (by simp [hmem, hlive])]
      rfl
    · rfl
  · rw [if_neg hmem]
    split
    · rw [Finset.card_insert_of_notMem (by simp [hmem])]
    · rfl

/-- One more key is counted when it is live. -/
theorem liveCount_append :
    v.liveCount (keys ++ [key]) now
      = v.liveCount keys now + if (v.live key now).isSome then 1 else 0 := by
  rw [liveCount, liveCount, List.countP_append, List.countP_singleton]

/-- No more keys are counted than there are. -/
theorem card_liveKeys_le : (v.liveKeys keys now).card ≤ keys.length :=
  (Finset.card_filter_le _ _).trans keys.toFinset_card_le

/-- The order of the keys does not matter to what is erased. -/
theorem eraseAll_perm {keys' : List Bytes} (h : keys'.Perm keys) :
    v.eraseAll keys' = v.eraseAll keys := by
  funext k
  simp only [eraseAll, h.mem_iff]

/-- The order of the keys does not matter to what is purged. -/
theorem purgeAll_perm {keys' : List Bytes} (h : keys'.Perm keys) :
    v.purgeAll keys' now = v.purgeAll keys now := by
  funext k
  simp only [purgeAll, h.mem_iff]

/-- The order of the keys does not matter to which of them are live. -/
theorem liveKeys_perm {keys' : List Bytes} (h : keys'.Perm keys) :
    v.liveKeys keys' now = v.liveKeys keys now := by
  rw [liveKeys, liveKeys, List.toFinset_eq_of_perm _ _ h]

/-- The order of the keys does not matter to how often a live one is listed. -/
theorem liveCount_perm {keys' : List Bytes} (h : keys'.Perm keys) :
    v.liveCount keys' now = v.liveCount keys now :=
  h.countP_eq _

end Dict

/-- A count goes up by one. -/
theorem ofNat_add_ite (n : Nat) (p : Prop) [Decidable p] :
    Int64.ofNat n + (if p then 1 else 0) = Int64.ofNat (n + if p then 1 else 0) := by
  split
  · rw [Int64.ofNat_add]
    rfl
  · exact Int64.add_zero _

variable [EntryPool]

/-- A key loop has left the dictionary `v` and counted `n`. -/
structure Counted (v : Dict) (n : Nat) (x : Store × Int64) : Prop where
  inv : x.1.table.Inv
  view : x.1.view = v
  count : x.2 = Int64.ofNat n

/-- A round of DEL: the key is erased, and counted if it was live and not erased before. -/
theorem delStep_counted {v : Dict} {done : List Bytes} {now : Int64} {x : Store × Int64}
    (h : Counted (v.eraseAll done) (v.liveKeys done now).card x) (key : Bytes) :
    ∃ x', delStep now x key = some x' ∧
      Counted (v.eraseAll (done ++ [key])) (v.liveKeys (done ++ [key]) now).card x' := by
  obtain ⟨s, n⟩ := x
  obtain ⟨hinv, hview, rfl⟩ := h
  dsimp only at hinv hview
  obtain ⟨s', herase, hleaves⟩ := Store.erase_spec hinv key now
  have hview' : s'.view = s.view.erase key := hleaves.table.view
  refine ⟨_, by rw [delStep, herase]; rfl, hleaves.table.inv, ?_, ?_⟩
  · rw [hview', hview, Dict.erase_eraseAll]
  · rw [ofNat_add_ite, Dict.card_liveKeys_append, hview]

/-- The key loop of DEL. -/
theorem delStep_loop {s : Store} (h : s.table.Inv) (keys : List Bytes) (now : Int64) :
    ∃ s', keys.foldlM (delStep now) (s, 0)
        = some (s', Int64.ofNat (s.view.liveKeys keys now).card) ∧
      s'.view = s.view.eraseAll keys := by
  obtain ⟨⟨s', n⟩, hrun, -, hview, rfl⟩ := foldlM_rule
    (fun done => Counted (s.view.eraseAll done) (s.view.liveKeys done now).card)
    (fun _ key _ _ _ hx => delStep_counted hx key) (s := (s, 0)) ⟨h, rfl, rfl⟩
  exact ⟨s', hrun, hview⟩

/-- A round of EXISTS: the key is purged, and counted if it is live. -/
theorem existsStep_counted {v : Dict} {done : List Bytes} {now : Int64} {x : Store × Int64}
    (h : Counted (v.purgeAll done now) (v.liveCount done now) x) (key : Bytes) :
    ∃ x', existsStep now x key = some x' ∧
      Counted (v.purgeAll (done ++ [key]) now) (v.liveCount (done ++ [key]) now) x' := by
  obtain ⟨s, n⟩ := x
  obtain ⟨hinv, hview, rfl⟩ := h
  dsimp only at hinv hview
  obtain ⟨r, s', hfind, hleaves, hr⟩ := Store.find_spec hinv key now false
  have hlooked : Store.Looked s key now r s' := ⟨hleaves, hr⟩
  -- A pointer is returned for a live key, and purging has not changed which are live.
  have hsome : r.isSome = (v.live key now).isSome := by
    rw [← @Dict.live_purgeAll v done, ← hview]
    rcases hlooked.cases with ⟨rfl, hlive⟩ | ⟨p, it, rfl, hlive, -⟩
    · rw [hlive]
      rfl
    · rw [hlive]
      rfl
  have hview' : s'.view = s.view.purge key now := hlooked.table.view
  refine ⟨_, by rw [existsStep, hfind]; rfl, hlooked.table.inv, ?_, ?_⟩
  · rw [hview', hview, Dict.purge_purgeAll]
  · rw [ofNat_add_ite, Dict.liveCount_append, hsome]

/-- The key loop of EXISTS. -/
theorem existsStep_loop {s : Store} (h : s.table.Inv) (keys : List Bytes) (now : Int64) :
    ∃ s', keys.foldlM (existsStep now) (s, 0)
        = some (s', Int64.ofNat (s.view.liveCount keys now)) ∧
      s'.view = s.view.purgeAll keys now := by
  obtain ⟨⟨s', n⟩, hrun, -, hview, rfl⟩ := foldlM_rule
    (fun done => Counted (s.view.purgeAll done now) (s.view.liveCount done now))
    (fun _ key _ _ _ hx => existsStep_counted hx key) (s := (s, 0)) ⟨h, rfl, rfl⟩
  exact ⟨s', hrun, hview⟩

/-- What DEL answers and leaves, in closed form. -/
theorem cmdDel_eq {s : Store} (h : s.table.Inv) (cmd : Command) (now : Int64) (out : Buffer) :
    ∃ s', cmdDel s cmd now out = some (s', reply.integer out
        (Int64.ofNat (s.view.liveKeys (cmd.args.drop 1) now).card)) ∧
      s'.view = s.view.eraseAll (cmd.args.drop 1) := by
  obtain ⟨s', hrun, hview⟩ := delStep_loop h (cmd.args.drop 1) now
  exact ⟨s', by rw [cmdDel, hrun]; rfl, hview⟩

/-- EXISTS answers with how often a live key is listed. -/
theorem cmdExists_eq {s : Store} (h : s.table.Inv) (cmd : Command) (now : Int64) (out : Buffer) :
    ∃ s', cmdExists s cmd now out = some (s', reply.integer out
        (Int64.ofNat (s.view.liveCount (cmd.args.drop 1) now))) ∧
      s'.view = s.view.purgeAll (cmd.args.drop 1) now := by
  obtain ⟨s', hrun, hview⟩ := existsStep_loop h (cmd.args.drop 1) now
  exact ⟨s', by rw [cmdExists, hrun]; rfl, hview⟩

omit [EntryPool] in
/-- A command has few enough keys to count. -/
theorem toInt_ofNat_keys {n : Nat} {cmd : Command} (h : n ≤ (cmd.args.drop 1).length) :
    (Int64.ofNat n).toInt = n := by
  have hargs : cmd.args.length ≤ kMaxArgs := by simp [Command.args]
  have hmax : kMaxArgs = 16 := rfl
  rw [List.length_drop] at h
  exact Int64.toInt_ofNat_of_lt (by omega)

/-- DEL and EXISTS over many keys, for any store that a client can reach. DEL answers with the
number of different keys of its list that are live; no key of the list is left, and the item of
every other key stays. EXISTS answers with the number of places of its list that hold a live key,
and the item of every live key stays as it is, clock included. A permutation of the list changes
neither answer, nor what is left in the store. -/
theorem del_exists_keys {cfg : Config} {s : Store} (hreach : Store.Reachable cfg s) (cmd : Command)
    (now : Int64) (out : Buffer) :
    (∃ s' n, cmdDel s cmd now out = some (s', reply.integer out n) ∧
      n.toInt = ((cmd.args.drop 1).toFinset.filter fun k => (s.view.live k now).isSome).card ∧
      (∀ k ∈ cmd.args.drop 1, s'.view k = none) ∧
      ∀ k ∉ cmd.args.drop 1, s'.view k = s.view k) ∧
    (∃ s' n, cmdExists s cmd now out = some (s', reply.integer out n) ∧
      n.toInt = (cmd.args.drop 1).countP (fun k => (s.view.live k now).isSome) ∧
      ∀ k it, s.view.live k now = some it → s'.view k = some it) ∧
    ∀ cmd' : Command, (cmd'.args.drop 1).Perm (cmd.args.drop 1) →
      (∃ s₁ s₂ out', cmdDel s cmd now out = some (s₁, out') ∧
        cmdDel s cmd' now out = some (s₂, out') ∧ s₂.view = s₁.view) ∧
      (∃ s₁ s₂ out', cmdExists s cmd now out = some (s₁, out') ∧
        cmdExists s cmd' now out = some (s₂, out') ∧ s₂.view = s₁.view) := by
  have hinv := hreach.sound.inv
  obtain ⟨s₁, hdel, hview₁⟩ := cmdDel_eq hinv cmd now out
  obtain ⟨s₂, hexists, hview₂⟩ := cmdExists_eq hinv cmd now out
  refine ⟨⟨s₁, _, hdel, toInt_ofNat_keys Dict.card_liveKeys_le, fun k hk => ?_, fun k hk => ?_⟩,
    ⟨s₂, _, hexists, toInt_ofNat_keys List.countP_le_length, fun k it hlive => ?_⟩,
    fun cmd' hperm => ⟨?_, ?_⟩⟩
  -- DEL: what it leaves under its keys and under others.
  · rw [hview₁]
    exact if_pos hk
  · rw [hview₁]
    exact if_neg hk
  -- EXISTS: a key that is live is left as it is.
  · rw [hview₂, Dict.purgeAll, hlive]
    split
    · rfl
    · exact (Option.filter_eq_some_iff.mp hlive).1
  -- Another order of the keys gives the same count and the same dictionary.
  · obtain ⟨s₁', hdel', hview₁'⟩ := cmdDel_eq hinv cmd' now out
    rw [Dict.liveKeys_perm hperm] at hdel'
    rw [Dict.eraseAll_perm hperm, ← hview₁] at hview₁'
    exact ⟨s₁, s₁', _, hdel, hdel', hview₁'⟩
  · obtain ⟨s₂', hexists', hview₂'⟩ := cmdExists_eq hinv cmd' now out
    rw [Dict.liveCount_perm hperm] at hexists'
    rw [Dict.purgeAll_perm hperm, ← hview₂] at hview₂'
    exact ⟨s₂, s₂', _, hexists, hexists', hview₂'⟩

omit [EntryPool] in
/-- One live key, named twice among absent ones. -/
theorem del_exists_keys_twice : letI := slabPool
    let cmd : Command := (parseCommand (ascii "DEL k x k\r\n") Command.empty).2
    ∃ s s₁ s₂ : Store, ∃ n m : Int64,
      s.view (ascii "k") = some { value := ascii "v", expiresAtMs := 2500, lruClock := 1000 } ∧
      cmdDel s cmd 1300 (Buffer.new 0) = some (s₁, reply.integer (Buffer.new 0) n) ∧
      n.toInt = 1 ∧ s₁.view (ascii "k") = none ∧
      cmdExists s cmd 1300 (Buffer.new 0) = some (s₂, reply.integer (Buffer.new 0) m) ∧
      m.toInt = 2 := by
  let _ := slabPool
  intro cmd
  obtain ⟨s₀, s, -, -, hreach, -, hview⟩ := Store.exists_reachable_single 0
    (show ({ seed := 7, initialBuckets := 4 } : Config).initialBuckets ≤ 2 ^ 63 by decide)
    (by decide) (show (ascii "k").length + (ascii "v").length < 2 ^ 32 by decide)
    (show ¬ Store.Past 2500 1000 by decide)
  obtain ⟨⟨s₁, n, hdel, hn, hgone, -⟩, ⟨s₂, m, hexists, hm, -⟩, -⟩ :=
    del_exists_keys hreach cmd 1300 (Buffer.new 0)
  have hargs : cmd.args.drop 1 = [ascii "k", ascii "x", ascii "k"] := by decide
  rw [hview, hargs] at hn hm
  refine ⟨s, s₁, s₂, n, m, ?_, hdel, hn.trans ?_, hgone _ ?_, hexists, hm.trans ?_⟩
  · rw [hview]
    exact Function.update_self ..
  · decide
  · rw [hargs]
    decide
  · decide

end TinyRedis

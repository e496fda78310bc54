import TinyRedis.Proofs.Command.Plans
import TinyRedis.Proofs.Store.Quiet

/-!
# `TinyRedis.Proofs.Command.Apart`: commands on other keys are not seen

A call on a key reads and writes nothing but the live item under that key (`step_footprint`). So it
does to the part of a dictionary under some keys (`only`) what it does to the whole, if its key is
among them, and nothing if it is not.

`Apart` relates a store to one on which only the commands on the keys `mine` have been carried out:
commands on these keys are answered alike on both (`Apart.own`), and neither commands on other keys
nor expire cycles can be told from nothing (`Apart.other`, `Apart.cycle`). Neither store ever fills
up, so nothing is evicted or refused, under whatever policy.

* `Dict.step_footprint`: the calls of the dictionary, each as a function of one live item.
* `Dict.step_only`, `Dict.step_apart`: a call on a key of `mine`, and a call on another one.
* `Store.Apart.call_own`, `call_other`: the same for the store, through the simulation.
* `Store.Apart.own`, `other`: the same for commands, through their plans.

The commands that are about the whole store have no key: `FLUSHALL` empties it for everybody, and
they are left out by `Command.whole`. `Proofs.Net.Isolation` uses the relation with the keys of one
client for `mine`.
-/

set_option autoImplicit false

namespace TinyRedis

open Lib

/-- The key of a call, if it is about one. -/
def Store.Op.key? : Store.Op → Option Bytes
  | .find key _ _ | .set key _ _ _ | .erase key _ | .setExpireAt key _ _ | .ttlMs key _ => some key
  | .clear | .size => none

namespace Dict

variable {v w : Dict} {mine : Finset Bytes} {key : Bytes} {now t : Int64}

/-- A call on a key reads and writes the live item under the key, and nothing else. -/
theorem step_footprint {op : Store.Op} (hkey : op.key? = some key) :
    ∃ (t : Int64) (f : Option Item → Reply) (g : Option Item → Option Item), op.now? = some t ∧
      ∀ v : Dict, v.step op = (f (v.live key t), Function.update v key (g (v.live key t))) := by
  -- For each call, how it answers and what it leaves, both from the live item alone.
  cases op with
  | find k t touch =>
    cases hkey
    cases touch with
    | true =>
      refine ⟨t, fun o => .value (o.map Item.value),
        fun o => o.map fun it => { it with lruClock := clock32 t }, rfl, fun v => ?_⟩
      rw [step, if_pos rfl, touch, purge_self, update_purge]
    | false => exact ⟨t, fun o => .value (o.map Item.value), fun o => o, rfl, fun v => rfl⟩
  | set k value expireAtMs t =>
    cases hkey
    refine ⟨t, fun _ => .bool true, fun o => if Store.Past expireAtMs t then none
      else some (written o value expireAtMs t), rfl, fun v => ?_⟩
    rw [step]
    split <;> rfl
  | erase k t =>
    cases hkey
    exact ⟨t, fun o => .bool o.isSome, fun _ => none, rfl, fun v => rfl⟩
  | setExpireAt k expireAtMs t =>
    cases hkey
    refine ⟨t, fun o => .bool o.isSome, fun o => if expireAtMs < t then none
      else o.map fun it => { it with expiresAtMs := expireAtMs, lruClock := clock32 t }, rfl,
      fun v => ?_⟩
    rw [step]
    split <;> rfl
  | ttlMs k t =>
    cases hkey
    exact ⟨t, fun o => .ttl (Store.ttlOf o t).toInt, fun o => o, rfl, fun v => rfl⟩
  | clear => cases hkey
  | size => cases hkey

/-- The part of the dictionary under the keys `mine`. -/
def only (v : Dict) (mine : Finset Bytes) : Dict := fun k => if k ∈ mine then v k else none

/-- The live items of the part are those of the whole, under its keys. -/
theorem live_only (k : Bytes) :
    (v.only mine).live k now = if k ∈ mine then v.live k now else none := by
  unfold live only
  split <;> rfl

/-- A write under one of the keys shows in the part. -/
theorem only_update_of_mem (h : key ∈ mine) (o : Option Item) :
    only (Function.update v key o) mine = Function.update (v.only mine) key o := by
  funext k
  by_cases hk : k = key
  · subst hk
    simp [only, h]
  · simp [only, hk]

/-- A write under another key does not. -/
theorem only_update_of_notMem (h : key ∉ mine) (o : Option Item) :
    only (Function.update v key o) mine = v.only mine := by
  funext k
  by_cases hk : k = key
  · subst hk
    simp [only, h]
  · simp [only, hk]

/-- A call on one of the keys does to their part what it does to the whole. -/
theorem step_only {op : Store.Op} (hkey : op.key? = some key) (hmine : key ∈ mine) :
    (v.only mine).step op = ((v.step op).1, (v.step op).2.only mine) := by
  obtain ⟨t, f, g, -, hstep⟩ := step_footprint hkey
  rw [hstep, hstep, live_only, if_pos hmine, only_update_of_mem hmine]

/-- A call on another key does nothing to it. -/
theorem step_apart {op : Store.Op} (hkey : op.key? = some key) (hmine : key ∉ mine) :
    (v.step op).2.only mine = v.only mine := by
  obtain ⟨t, f, g, -, hstep⟩ := step_footprint hkey
  rw [hstep, only_update_of_notMem hmine]

/-- Dictionaries that agree, agree on a part. -/
theorem Agree.only (h : Agree now v w) (mine : Finset Bytes) :
    Agree now (v.only mine) (w.only mine) := by
  intro k t hle
  rw [live_only, live_only, h k t hle]

/-- Agreement goes on from one dictionary to the next. -/
theorem Agree.trans {u : Dict} (h : Agree now u v) (h' : Agree now v w) : Agree now u w :=
  fun k t hle => (h k t hle).trans (h' k t hle)

/-- Agreement has no direction. -/
theorem Agree.symm (h : Agree now v w) : Agree now w v := fun k t hle => (h k t hle).symm

end Dict

namespace Command

/-- Whether the command is about all keys. -/
def whole (cmd : Command) : Bool :=
  cmd.handler? = some .kDbsize ∨ cmd.handler? = some .kFlushall

/-- The key that a SET names. -/
def setKey? (cmd : Command) : Option Bytes :=
  if cmd.handler? = some .kSet then some (cmd.get 1) else none

variable {cmd : Command} {now : Int64} {op : Store.Op}

/-- A command with bounded arguments asks for calls that the store can carry out. -/
theorem Asks.fits (h : cmd.Asks now op) (hbounded : cmd.Bounded) : op.Fits := by
  cases h with
  | set =>
    have hmax : kMaxBulkLength + kMaxBulkLength < 2 ^ 32 := by decide
    exact Nat.lt_of_le_of_lt (Nat.add_le_add (hbounded 1) (hbounded 2)) hmax
  | find | erase | setExpireAt | ttlMs | clear | size => trivial

/-- A command sets no key but its own. -/
theorem Asks.setKey (h : cmd.Asks now op) : ∀ key ∈ op.setKey?, key ∈ cmd.setKey? := by
  cases h with
  | set _ hset =>
    rintro _ ⟨⟩
    simp [setKey?, hset]
  | find | erase | setExpireAt | ttlMs | clear | size => nofun

/-- Calls on a key are on one of the command's own keys, and at its own time. -/
theorem Asks.keyed (h : cmd.Asks now op) :
    (op = .clear ∧ cmd.handler? = some .kFlushall) ∨ (op = .size ∧ cmd.handler? = some .kDbsize) ∨
      ∃ key ∈ cmd.keys, op.key? = some key ∧ op.now? = some now := by
  cases h with
  | set _ hset => exact .inr (.inr ⟨cmd.get 1, by simp [keys, hset], rfl, rfl⟩)
  | find _ hkey | erase hkey | setExpireAt _ hkey | ttlMs hkey =>
    exact .inr (.inr ⟨_, hkey, rfl, rfl⟩)
  | clear hcmd => exact .inl ⟨rfl, hcmd⟩
  | size hcmd => exact .inr (.inl ⟨rfl, hcmd⟩)

end Command

variable [EntryPool]

/-- The store `w` has seen only what happened to the keys `mine` of `s`. At most the keys of `K`,
fewer than the cap, are in either. -/
structure Store.Apart (K mine : Finset Bytes) (now : Int64) (s w : Store) : Prop where
  left : Store.Quiet K s
  right : Store.Quiet K w
  agree : Dict.Agree now (s.view.only mine) (w.view.only mine)

namespace Store.Apart

variable {K mine : Finset Bytes} {now t : Int64} {s w : Store} {op : Op} {key : Bytes}

/-- The relation is about the times to come, so it stays. -/
theorem mono (h : Apart K mine now s w) (hle : now ≤ t) : Apart K mine t s w :=
  { h with agree := h.agree.mono hle }

/-- A call on one of the keys is answered alike. -/
theorem call_own (h : Apart K mine now s w) (hfit : op.Fits) (hset : ∀ k ∈ op.setKey?, k ∈ K)
    (hkey : op.key? = some key) (hmine : key ∈ mine) (hnow : op.now? = some now) :
    ∃ r s' w', op.run s = some (r, s') ∧ op.run w = some (r, w') ∧ Apart K mine now s' w' := by
  have hsize : op ≠ .size := by
    rintro rfl
    cases hkey
  obtain ⟨s', hs', hquiet, hview⟩ := h.left.step hfit hsize hset
  obtain ⟨w', hw', hquiet', hview'⟩ := h.right.step hfit hsize hset
  have hlater : ∀ t ∈ op.now?, now ≤ t := by
    rw [hnow]
    rintro _ ⟨⟩
    exact Int64.le_refl now
  -- On the parts under `mine` the call does what it does on the whole.
  obtain ⟨hreply, hagree⟩ := h.agree.step hlater
  rw [Dict.step_only hkey hmine, Dict.step_only hkey hmine] at hreply hagree
  rw [hnow, Option.getD_some, ← hview, ← hview'] at hagree
  refine ⟨_, s', w', hs', ?_, hquiet, hquiet', hagree⟩
  rw [hw', show (s.view.step op).1 = (w.view.step op).1 from hreply]

/-- A call on another key is not seen. -/
theorem call_other (h : Apart K mine now s w) (hfit : op.Fits) (hset : ∀ k ∈ op.setKey?, k ∈ K)
    (hkey : op.key? = some key) (hmine : key ∉ mine) :
    ∃ r s', op.run s = some (r, s') ∧ Apart K mine now s' w := by
  have hsize : op ≠ .size := by
    rintro rfl
    cases hkey
  obtain ⟨s', hs', hquiet, hview⟩ := h.left.step hfit hsize hset
  refine ⟨_, s', hs', hquiet, h.right, ?_⟩
  rw [hview, Dict.step_apart hkey hmine]
  exact h.agree

/-- An expire cycle is not seen. -/
theorem cycle (h : Apart K mine now s w) (hle : now ≤ t) (sampleLimit : Nat) :
    ∃ r s', s.activeExpireCycle t sampleLimit = some (r, s') ∧ Apart K mine t s' w := by
  obtain ⟨r, s', hrun, hquiet, hagree⟩ := h.left.cycle t sampleLimit
  exact ⟨r, s', hrun, hquiet, h.right, (hagree.only mine).symm.trans (h.agree.mono hle)⟩

variable {cmd : Command}

/-- A command on keys of `mine` does the same on both stores. -/
theorem own (h : Apart K mine now s w) (hle : now ≤ t) (hbounded : cmd.Bounded)
    (hwhole : cmd.whole = false) (hkeys : ∀ k ∈ cmd.keys, k ∈ mine)
    (hset : ∀ k ∈ cmd.setKey?, k ∈ K) :
    ∃ x s' w', (cmd.plan t).runM Op.run s = some (x, s') ∧
      (cmd.plan t).runM Op.run w = some (x, w') ∧ Apart K mine t s' w' := by
  refine Plan.runM_pair (Apart K mine t) ?_ (cmd.plan_all t) (h.mono hle)
  intro s w op hapart hasks
  rcases hasks.keyed with ⟨-, hcmd⟩ | ⟨-, hcmd⟩ | ⟨key, hkey, hop, hnow⟩
  · simp [Command.whole, hcmd] at hwhole
  · simp [Command.whole, hcmd] at hwhole
  · exact hapart.call_own (hasks.fits hbounded) (fun k hk => hset k (hasks.setKey k hk)) hop
      (hkeys key hkey) hnow

/-- A command on other keys is not seen, unless it is a FLUSHALL. -/
theorem other (h : Apart K mine now s w) (hle : now ≤ t) (hbounded : cmd.Bounded)
    (hflush : cmd.handler? ≠ some .kFlushall) (hkeys : ∀ k ∈ cmd.keys, k ∉ mine)
    (hset : ∀ k ∈ cmd.setKey?, k ∈ K) :
    ∃ x s', (cmd.plan t).runM Op.run s = some (x, s') ∧ Apart K mine t s' w := by
  refine Plan.runM_rule (fun s => Apart K mine t s w) ?_ (cmd.plan_all t) (h.mono hle)
  intro s op hapart hasks
  rcases hasks.keyed with ⟨-, hcmd⟩ | ⟨rfl, -⟩ | ⟨key, hkey, hop, -⟩
  · exact absurd hcmd hflush
  · exact ⟨_, s, rfl, hapart⟩
  · exact hapart.call_other (hasks.fits hbounded) (fun k hk => hset k (hasks.setKey k hk)) hop
      (hkeys key hkey)

end Store.Apart

end TinyRedis

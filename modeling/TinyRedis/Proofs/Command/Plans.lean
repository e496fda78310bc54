import TinyRedis.Lib.Plan
import TinyRedis.Proofs.Command.Sync
import TinyRedis.Proofs.Store.Reference

/-!
# `TinyRedis.Proofs.Command.Plans`: a command is a plan of store calls

`Command.plan` says which calls a command makes into the store and how it turns their answers into
its reply. It names no store, so the same plan runs on the store and on every machine that a store
is shown to follow. `dispatch_of_plan` connects it to the code: what the plan gives on the store is
what `dispatch` gives.

`Command.Asks` bounds the calls of a command: its own keys, its own time, and nothing of the whole
table unless it is a DBSIZE or a FLUSHALL.

* `getPlan`, `setPlan` and so on: the handlers as plans. DEL and EXISTS share `countPlan`.
* `handlePlan`, `plan`: the handler of a command, and the dispatcher in front of it.
* `plan_all`: every call of a plan is one that the command asks for.
* `cmdGet_of_plan` and so on, `dispatch_of_plan`: the code follows the plan.

A plan separates what a command does from where it does it. It is not a specification of the
arguments: `setPlan`, `expirePlan` and `ttlPlan` read their options with `setOptions`, `parseInt`
and `deadline`, and round with the machine's arithmetic, as the code does. What these should come to
is said in `TinyRedis.Proofs.Command.Meaning`, without any of them.
-/

set_option autoImplicit false

namespace TinyRedis

open Lib

/-- Calls into the store, with what is made of their answers. -/
abbrev StorePlan := Plan Store.Op Reply

namespace Reply

/-! An answer as the kind that the call has. A store gives no other kind. -/

/-- The answer of a call that says whether something was done. -/
def isTrue : Reply → Bool
  | .bool b => b
  | _ => false

/-- The answer of a call that looks up a value. -/
def value? : Reply → Option Bytes
  | .value v => v
  | _ => none

/-- The answer of a call that asks for the time left. -/
def ms : Reply → Int64
  | .ttl ms => Int64.ofInt ms
  | _ => 0

/-- The answer of a call that counts the keys. -/
def count : Reply → Nat
  | .size n => n
  | _ => 0

end Reply

/-! ### The plans -/

/-- The error of a deadline that is too far away. -/
def invalidExpireText (name : Bytes) : Bytes :=
  ascii "ERR invalid expire time in '" ++ name ++ ascii "' command"

/-- The error of a command with too few or too many arguments. -/
def wrongArityText (name : Bytes) : Bytes :=
  ascii "ERR wrong number of arguments for '" ++ name ++ ascii "' command"

/-- The error of a command that there is not. It shows the name and the arguments, on one line. -/
def unknownCommandText (cmd : Command) : Bytes :=
  (cmd.args.drop 1).foldl (fun msg arg => appendSanitized (msg ++ ascii "'") arg ++ ascii "' ")
    (appendSanitized (ascii "ERR unknown command '") (cmd.get 0)
      ++ ascii "', with args beginning with: ")

/-- One call for each key, and the number of calls that hit. -/
def countPlan (op : Bytes → Store.Op) (hit : Reply → Bool) : List Bytes → Int64 → StorePlan Int64
  | [], n => .ret n
  | key :: keys, n => .call (op key) fun r => countPlan op hit keys (n + if hit r then 1 else 0)

namespace Command

variable (cmd : Command) (now : Int64)

/-- GET: the value, or the null bulk. -/
def getPlan : StorePlan RespReply :=
  .call (.find (cmd.get 1) now true) fun r => .ret (r.value?.elim .nullBulk .bulk)

/-- SET, with the option parser and the deadline of the code. -/
def setPlan : StorePlan RespReply :=
  match setOptions now (cmd.args.drop 3) kNoExpiry false with
  | .error .syntaxError => .ret (.error kSyntax)
  | .error .notInteger => .ret (.error kNotInteger)
  | .error .invalidExpire => .ret (.error (invalidExpireText (ascii "set")))
  | .ok expireAt => .call (.set (cmd.get 1) (cmd.get 2) expireAt now) fun r =>
      .ret (if r.isTrue then .simpleString (ascii "OK") else .error kOom)

/-- DEL: erases each key. -/
def delPlan : StorePlan RespReply :=
  (countPlan (fun key => .erase key now) Reply.isTrue (cmd.args.drop 1) 0).map .integer

/-- EXISTS: looks each key up, and does not count it as used. -/
def existsPlan : StorePlan RespReply :=
  (countPlan (fun key => .find key now false) (fun r => r.value?.isSome) (cmd.args.drop 1) 0).map
    .integer

/-- EXPIRE, with the number and the deadline of the code. A time that is over deletes the key. -/
def expirePlan : StorePlan RespReply :=
  match parseInt (cmd.get 2) with
  | none => .ret (.error kNotInteger)
  | some secs =>
      if secs ≤ 0 then .call (.erase (cmd.get 1) now) fun r =>
        .ret (.integer (if r.isTrue then 1 else 0))
      else
        match deadline secs kMsPerSec now with
        | none => .ret (.error (invalidExpireText (ascii "expire")))
        | some expireAt => .call (.setExpireAt (cmd.get 1) expireAt now) fun r =>
            .ret (.integer (if r.isTrue then 1 else 0))

/-- TTL, rounded to seconds in the arithmetic of the code. -/
def ttlPlan : StorePlan RespReply :=
  .call (.ttlMs (cmd.get 1) now) fun r =>
    .ret (.integer (if r.ms < 0 then r.ms else (r.ms + kMsPerSec / 2) / kMsPerSec))

/-- PING takes one argument at most, which its entry in the table does not say. -/
def pingReply : RespReply :=
  if cmd.argc > 2 then .error (wrongArityText (ascii "ping"))
  else if cmd.argc = 2 then .bulk (cmd.get 1)
  else .simpleString (ascii "PONG")

/-- FLUSHALL takes `ASYNC` or `SYNC`, and does the same for both. -/
def flushallPlan : StorePlan RespReply :=
  if cmd.argc > 2 ∨ (cmd.argc = 2 ∧ ¬ iequals (cmd.get 1) (ascii "async") ∧
      ¬ iequals (cmd.get 1) (ascii "sync")) then .ret (.error kSyntax)
  else .call .clear fun _ => .ret (.simpleString (ascii "OK"))

/-- The plan of a command whose arity is right. -/
def handlePlan : Cmd → StorePlan RespReply
  | .kGet => cmd.getPlan now
  | .kSet => cmd.setPlan now
  | .kDel => cmd.delPlan now
  | .kExists => cmd.existsPlan now
  | .kExpire => cmd.expirePlan now
  | .kTtl => cmd.ttlPlan now
  | .kPing => .ret cmd.pingReply
  | .kEcho => .ret (.bulk (cmd.get 1))
  | .kDbsize => .call .size fun r => .ret (.integer (Int64.ofNat r.count))
  | .kFlushall => cmd.flushallPlan
  | .kQuit => .ret (.simpleString (ascii "OK"))

/-- What a command does with the store, and what it replies. -/
def plan : StorePlan (DispatchResult × Option RespReply) :=
  if cmd.argc = 0 then .ret (.kContinue, none)
  else
    match lookup (cmd.get 0) with
    | none => .ret (.kContinue, some (.error (unknownCommandText cmd)))
    | some spec =>
        if ¬ arityOk spec cmd.argc then
          .ret (.kContinue, some (.error (wrongArityText spec.name)))
        else (cmd.handlePlan now spec.cmd).map fun r =>
          (if spec.cmd = .kQuit then .kCloseConnection else .kContinue, some r)

/-! ### The calls of a plan -/

/-- The handler that `dispatch` runs for the command. -/
def handler? : Option Cmd :=
  if cmd.argc = 0 then none
  else (lookup (cmd.get 0)).bind fun spec => if arityOk spec cmd.argc then some spec.cmd else none

/-- The keys that the command names. -/
def keys : List Bytes :=
  match cmd.handler? with
  | some .kGet | some .kSet | some .kExpire | some .kTtl => [cmd.get 1]
  | some .kDel | some .kExists => cmd.args.drop 1
  | _ => []

/-- The calls that a command may make: at its own time, on its own keys. -/
inductive Asks : Store.Op → Prop where
  | find {key : Bytes} (touch : Bool) : key ∈ cmd.keys → Asks (.find key now touch)
  | set (expireAtMs : Int64) : cmd.handler? = some .kSet →
      Asks (.set (cmd.get 1) (cmd.get 2) expireAtMs now)
  | erase {key : Bytes} : key ∈ cmd.keys → Asks (.erase key now)
  | setExpireAt {key : Bytes} (expireAtMs : Int64) : key ∈ cmd.keys →
      Asks (.setExpireAt key expireAtMs now)
  | ttlMs {key : Bytes} : key ∈ cmd.keys → Asks (.ttlMs key now)
  | clear : cmd.handler? = some .kFlushall → Asks .clear
  | size : cmd.handler? = some .kDbsize → Asks .size

end Command

/-- A plan over many keys makes the calls of its keys. -/
theorem countPlan_all {op : Bytes → Store.Op} {hit : Reply → Bool} {ok : Store.Op → Prop} :
    ∀ {keys : List Bytes} (n : Int64), (∀ key ∈ keys, ok (op key)) →
      (countPlan op hit keys n).All ok
  | [], _, _ => trivial
  | key :: _, _, h => ⟨h key List.mem_cons_self, fun _ =>
      countPlan_all _ fun k hk => h k (List.mem_cons_of_mem key hk)⟩

namespace Command

variable {cmd : Command} {now : Int64}

/-- SET makes no call but the one that sets its key. -/
theorem setPlan_all (h : cmd.handler? = some .kSet) : (cmd.setPlan now).All (cmd.Asks now) := by
  unfold setPlan
  split
  · exact trivial
  · exact trivial
  · exact trivial
  · exact ⟨.set _ h, fun _ => trivial⟩

/-- EXPIRE makes no call but on its key. -/
theorem expirePlan_all (h : cmd.get 1 ∈ cmd.keys) : (cmd.expirePlan now).All (cmd.Asks now) := by
  unfold expirePlan
  split
  · exact trivial
  · split
    · exact ⟨.erase h, fun _ => trivial⟩
    · split
      · exact trivial
      · exact ⟨.setExpireAt _ h, fun _ => trivial⟩

/-- FLUSHALL clears the table, or makes no call. -/
theorem flushallPlan_all (h : cmd.handler? = some .kFlushall) :
    cmd.flushallPlan.All (cmd.Asks now) := by
  unfold flushallPlan
  split
  · exact trivial
  · exact ⟨.clear h, fun _ => trivial⟩

/-- Every handler asks for what its command may ask for. -/
theorem handlePlan_all {c : Cmd} (h : cmd.handler? = some c) :
    (cmd.handlePlan now c).All (cmd.Asks now) := by
  cases c with
  | kGet => exact ⟨.find true (by simp [keys, h]), fun _ => trivial⟩
  | kSet => exact setPlan_all h
  | kDel =>
    exact Plan.all_map _ (countPlan_all 0 fun key hk => .erase (by simpa [keys, h] using hk))
  | kExists =>
    exact Plan.all_map _ (countPlan_all 0 fun key hk => .find false (by simpa [keys, h] using hk))
  | kExpire => exact expirePlan_all (by simp [keys, h])
  | kTtl => exact ⟨.ttlMs (by simp [keys, h]), fun _ => trivial⟩
  | kDbsize => exact ⟨.size h, fun _ => trivial⟩
  | kFlushall => exact flushallPlan_all h
  | kPing | kEcho | kQuit => exact trivial

/-- A command makes no other calls. -/
theorem plan_all (cmd : Command) (now : Int64) : (cmd.plan now).All (cmd.Asks now) := by
  unfold plan
  split
  · exact trivial
  next hargc =>
  split
  · exact trivial
  next spec hlookup =>
  split
  · exact trivial
  next harity =>
  rw [not_not] at harity
  exact Plan.all_map _ (handlePlan_all (by simp [handler?, hargc, hlookup, harity]))

end Command

/-! ### The code follows the plan -/

section Dispatch

variable [EntryPool] {s s' : Store} {now : Int64}

/-- A loop over keys that makes one call for each of them follows the counting plan. -/
theorem foldlM_of_countPlan {op : Bytes → Store.Op} {hit : Reply → Bool}
    {step : Store × Int64 → Bytes → Option (Store × Int64)}
    (hstep : ∀ s n key r s', (op key).run s = some (r, s') →
      step (s, n) key = some (s', n + if hit r then 1 else 0)) :
    ∀ {keys : List Bytes} {s s' : Store} {n m : Int64},
      (countPlan op hit keys n).runM Store.Op.run s = some (m, s') →
      keys.foldlM step (s, n) = some (s', m)
  | [], s, s', n, m, h => by
    cases h
    rfl
  | key :: keys, s, s', n, m, h => by
    obtain ⟨⟨r, s₁⟩, hcall, hrest⟩ := Option.bind_eq_some_iff.mp h
    rw [List.foldlM_cons, hstep s n key r s₁ hcall]
    exact foldlM_of_countPlan hstep hrest

variable {cmd : Command} {r : RespReply} (out : Buffer)

/-- GET follows its plan. -/
theorem cmdGet_of_plan (h : (cmd.getPlan now).runM Store.Op.run s = some (r, s')) :
    cmdGet s cmd now out = some (s', r.emit out) := by
  simp only [Command.getPlan, Plan.runM, Store.Op.run, Option.bind_eq_bind,
    Option.bind_eq_some_iff] at h
  obtain ⟨_, ⟨⟨e, s₁⟩, hfind, v, hread, hret⟩, h⟩ := h
  cases hret
  cases h
  cases e with
  | none =>
    cases hread
    rw [cmdGet, hfind]
    rfl
  | some p =>
    simp only [Store.read, Option.bind_eq_bind, Option.bind_eq_some_iff] at hread
    obtain ⟨e, he, value, hvalue, hv⟩ := hread
    cases hv
    simp only [cmdGet, hfind, Option.bind_eq_bind, Option.bind_some, he, hvalue]
    rfl

/-- SET follows its plan, with the error of each kind of bad option. -/
theorem cmdSet_of_plan (h : (cmd.setPlan now).runM Store.Op.run s = some (r, s')) :
    cmdSet s cmd now out = some (s', r.emit out) := by
  unfold Command.setPlan at h
  unfold cmdSet
  cases hopts : setOptions now (cmd.args.drop 3) kNoExpiry false with
  | error e =>
    rw [hopts] at h
    cases e <;> cases h <;> rfl
  | ok expireAt =>
    simp only [hopts, Plan.runM, Store.Op.run, Option.bind_eq_bind, Option.bind_eq_some_iff] at h
    obtain ⟨_, ⟨⟨stored, s₁⟩, hset, hret⟩, h⟩ := h
    cases hret
    cases h
    simp only [hset, Option.bind_eq_bind, Option.bind_some]
    cases stored <;> rfl

/-- DEL follows its plan: its loop is the plan over its keys. -/
theorem cmdDel_of_plan (h : (cmd.delPlan now).runM Store.Op.run s = some (r, s')) :
    cmdDel s cmd now out = some (s', r.emit out) := by
  rw [Command.delPlan, Plan.runM_map, Option.map_eq_some_iff] at h
  obtain ⟨⟨n, s₁⟩, hrun, h⟩ := h
  cases h
  have hstep : ∀ s n key r s', (Store.Op.erase key now).run s = some (r, s') →
      delStep now (s, n) key = some (s', n + if r.isTrue then 1 else 0) := by
    intro s n key r s' hcall
    simp only [Store.Op.run, Option.bind_eq_bind, Option.bind_eq_some_iff] at hcall
    obtain ⟨⟨erased, s₁⟩, herase, hret⟩ := hcall
    cases hret
    rw [delStep, herase]
    rfl
  rw [cmdDel, foldlM_of_countPlan hstep hrun]
  rfl

/-- EXISTS follows its plan. The code looks at the pointer it is given, and the plan at the value
behind it. -/
theorem cmdExists_of_plan (h : (cmd.existsPlan now).runM Store.Op.run s = some (r, s')) :
    cmdExists s cmd now out = some (s', r.emit out) := by
  rw [Command.existsPlan, Plan.runM_map, Option.map_eq_some_iff] at h
  obtain ⟨⟨n, s₁⟩, hrun, h⟩ := h
  cases h
  have hstep : ∀ s n key r s', (Store.Op.find key now false).run s = some (r, s') →
      existsStep now (s, n) key = some (s', n + if r.value?.isSome then 1 else 0) := by
    intro s n key r s' hcall
    simp only [Store.Op.run, Option.bind_eq_bind, Option.bind_eq_some_iff] at hcall
    obtain ⟨⟨e, s₁⟩, hfind, v, hread, hret⟩ := hcall
    cases hret
    -- The key is found exactly when there is a value to read.
    have hsome : v.isSome = e.isSome := by
      cases e with
      | none =>
        cases hread
        rfl
      | some p =>
        simp only [Store.read, Option.bind_eq_bind, Option.bind_eq_some_iff] at hread
        obtain ⟨_, -, _, -, hv⟩ := hread
        cases hv
        rfl
    simp [existsStep, hfind, Reply.value?, hsome]
  rw [cmdExists, foldlM_of_countPlan hstep hrun]
  rfl

/-- EXPIRE follows its plan, on each of its two ways into the store. -/
theorem cmdExpire_of_plan (h : (cmd.expirePlan now).runM Store.Op.run s = some (r, s')) :
    cmdExpire s cmd now out = some (s', r.emit out) := by
  unfold Command.expirePlan at h
  unfold cmdExpire
  cases hparse : parseInt (cmd.get 2) with
  | none =>
    rw [hparse] at h
    cases h
    rfl
  | some secs =>
    rw [hparse] at h
    dsimp only at h ⊢
    -- no time left, or a deadline to come
    by_cases hsecs : secs ≤ 0
    · simp only [if_pos hsecs, Plan.runM, Store.Op.run, Option.bind_eq_bind,
        Option.bind_eq_some_iff] at h ⊢
      obtain ⟨_, ⟨⟨erased, s₁⟩, herase, hret⟩, h⟩ := h
      cases hret
      cases h
      exact ⟨_, herase, rfl⟩
    · rw [if_neg hsecs] at h ⊢
      cases hdeadline : deadline secs kMsPerSec now with
      | none =>
        rw [hdeadline] at h
        cases h
        rfl
      | some expireAt =>
        simp only [hdeadline, Plan.runM, Store.Op.run, Option.bind_eq_bind,
          Option.bind_eq_some_iff] at h ⊢
        obtain ⟨_, ⟨⟨updated, s₁⟩, hset, hret⟩, h⟩ := h
        cases hret
        cases h
        exact ⟨_, hset, rfl⟩

/-- TTL follows its plan. -/
theorem cmdTtl_of_plan (h : (cmd.ttlPlan now).runM Store.Op.run s = some (r, s')) :
    cmdTtl s cmd now out = some (s', r.emit out) := by
  simp only [Command.ttlPlan, Plan.runM, Store.Op.run, Option.bind_eq_bind,
    Option.bind_eq_some_iff] at h
  obtain ⟨_, ⟨⟨ms, s₁⟩, httl, hret⟩, h⟩ := h
  cases hret
  cases h
  simp only [Reply.ms, Int64.ofInt_toInt]
  rw [cmdTtl, httl]
  rfl

/-- FLUSHALL follows its plan. -/
theorem cmdFlushall_of_plan (h : cmd.flushallPlan.runM Store.Op.run s = some (r, s')) :
    cmdFlushall s cmd out = some (s', r.emit out) := by
  unfold Command.flushallPlan at h
  unfold cmdFlushall
  split at h
  · next hsyntax =>
    cases h
    rw [if_pos hsyntax]
    rfl
  · next hsyntax =>
    simp only [Plan.runM, Store.Op.run, Option.bind_eq_bind, Option.bind_eq_some_iff] at h
    obtain ⟨_, ⟨s₁, hclear, hret⟩, h⟩ := h
    cases hret
    cases h
    rw [if_neg hsyntax, hclear]
    rfl

omit [EntryPool] in
/-- PING makes no call, and its reply is the one of the plan. -/
theorem emit_pingReply (cmd : Command) : cmd.pingReply.emit out = cmdPing cmd out := by
  unfold Command.pingReply cmdPing
  split
  · rfl
  · split <;> rfl

/-- Every handler follows its plan. -/
theorem handle_of_plan {c : Cmd} (h : (cmd.handlePlan now c).runM Store.Op.run s = some (r, s')) :
    handle s c cmd now out = some (s', r.emit out) := by
  cases c with
  | kGet => exact cmdGet_of_plan out h
  | kSet => exact cmdSet_of_plan out h
  | kDel => exact cmdDel_of_plan out h
  | kExists => exact cmdExists_of_plan out h
  | kExpire => exact cmdExpire_of_plan out h
  | kTtl => exact cmdTtl_of_plan out h
  | kFlushall => exact cmdFlushall_of_plan out h
  | kPing =>
    cases h
    rw [emit_pingReply]
    rfl
  | kEcho | kDbsize | kQuit =>
    cases h
    rfl

/-- What the plan gives on the store is what `dispatch` gives. -/
theorem dispatch_of_plan {x : DispatchResult × Option RespReply}
    (h : (cmd.plan now).runM Store.Op.run s = some (x, s')) :
    dispatch s cmd now out = some (x.1, s', emitReply out x.2) := by
  unfold Command.plan at h
  unfold dispatch
  -- The checks of the dispatcher are those of the plan, in the same order.
  split at h
  · next hargc =>
    cases h
    rw [if_pos hargc]
    rfl
  next hargc =>
  rw [if_neg hargc]
  cases hlookup : lookup (cmd.get 0) with
  | none =>
    rw [hlookup] at h
    cases h
    rfl
  | some spec =>
    rw [hlookup] at h
    dsimp only at h ⊢
    by_cases harity : ¬ arityOk spec cmd.argc
    · rw [if_pos harity] at h ⊢
      cases h
      rfl
    · rw [if_neg harity, Plan.runM_map, Option.map_eq_some_iff] at h
      obtain ⟨⟨r, s₁⟩, hrun, h⟩ := h
      cases h
      rw [if_neg harity, handle_of_plan out hrun]
      rfl

end Dispatch

/-! ### Bounded commands -/

/-- No argument is longer than a bulk string may be, as the parser ensures. -/
def Command.Bounded (cmd : Command) : Prop := ∀ i, (cmd.get i).length ≤ kMaxBulkLength

/-- Whether a command is bounded can be checked. -/
instance : DecidablePred Command.Bounded := fun cmd =>
  inferInstanceAs (Decidable (∀ i, (cmd.get i).length ≤ kMaxBulkLength))

/-- The calls of a command are at its own time. -/
theorem Command.Asks.now_eq {cmd : Command} {now : Int64} {op : Store.Op} (h : cmd.Asks now op) :
    ∀ t ∈ op.now?, now = t := by
  cases h with
  | find | set | erase | setExpireAt | ttlMs => exact fun t ht => Option.some.inj ht
  | clear | size => nofun

/-- The calls of a command keep what the store's callers promise. -/
theorem Command.Asks.ok {cmd : Command} {now : Int64} {op : Store.Op} (h : cmd.Asks now op)
    (hbounded : cmd.Bounded) (hnow : 0 ≤ now) : op.Ok := by
  have htime : ∀ t ∈ op.now?, 0 ≤ t := by
    intro t ht
    rw [← h.now_eq t ht]
    exact hnow
  cases h with
  | set => exact ⟨htime, hbounded 1, hbounded 2⟩
  | find | erase | setExpireAt | ttlMs | clear | size => exact ⟨htime, trivial⟩

end TinyRedis

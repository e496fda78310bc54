import Mathlib.Data.List.ReduceOption
import TinyRedis.Proofs.Command.Emits
import TinyRedis.Proofs.Store.Capacity

/-!
# `TinyRedis.Proofs.Command.Sync`: replies stay in step with commands

Every command is defined on a store within its capacity (`Cap.dispatch`). What a run of commands
writes decodes as the replies of its commands, in their order and with nothing left over
(`dispatchAll_in_sync`).

* `Store.Cap.cmdGet` and so on: each handler ends, and leaves the store within its capacity.
* `Store.Cap.countKeys`: so does a loop over keys, when one round of it does.
* `dispatchStep`, `dispatchAll`: a run of commands, each at its own time.
* `dispatchAll_replies`: a run appends one reply for each command with a name, in order.
* `dispatchAll_in_sync`: a client that reads the replies one after the other finds as many as it has
  sent commands.

The handlers need nothing of a command but that its key and its value fit in an entry
(`Command.Fits`), which the parser's cap on a bulk string gives.

Whatever bytes a client puts into its arguments come back only behind a length, or with the line
breaks taken out. So they cannot be read as a reply (`dispatchAll_in_sync_hostile` tries).
-/

set_option autoImplicit false

namespace TinyRedis

open Lib

/-- The reply bytes of a run are those of its replies. -/
theorem flatMap_replyBytes (replies : List (Option RespReply)) :
    replies.flatMap replyBytes = replies.reduceOption.flatMap RespReply.encode := by
  induction replies with
  | nil => rfl
  | cons r replies ih =>
    cases r with
    | none => simpa [replyBytes] using ih
    | some r => simpa [replyBytes] using ih

variable [EntryPool]

/-- A command whose key and value add up in `uint32_t`, as the parser's caps ensure. -/
def Command.Fits (cmd : Command) : Prop := (cmd.get 1).length + (cmd.get 2).length < 2 ^ 32

omit [EntryPool] in
/-- Whether a command fits can be checked. -/
instance : DecidablePred Command.Fits := fun _ => inferInstanceAs (Decidable (_ < _))

namespace Store.Cap

variable {presized : Prop} {b₀ m₀ : Nat} {s : Store}

/-! ### Commands are defined -/

/-- The key loop of a handler that makes one call for each key. -/
theorem countKeys (h : Cap presized b₀ m₀ s) (step : Store × Int64 → Bytes → Option (Store × Int64))
    (hstep : ∀ s n key, Cap presized b₀ m₀ s →
      ∃ s' n', step (s, n) key = some (s', n') ∧ Cap presized b₀ m₀ s')
    (keys : List Bytes) (n : Int64) :
    ∃ s' n', keys.foldlM step (s, n) = some (s', n') ∧ Cap presized b₀ m₀ s' := by
  obtain ⟨⟨s', n'⟩, hrun, hcap⟩ := foldlM_rule (f := step) (l := keys)
    (fun _ x => Cap presized b₀ m₀ x.1)
    (fun _ key _ x _ hx => by
      obtain ⟨s', n', hs', hcap⟩ := hstep x.1 x.2 key hx
      exact ⟨(s', n'), hs', hcap⟩) (s := (s, n)) h
  exact ⟨s', n', hrun, hcap⟩

variable (cmd : Command) (now : Int64) (out : Buffer)

/-- GET is defined: the value that is found can be read. -/
theorem cmdGet (h : Cap presized b₀ m₀ s) :
    ∃ s' out', TinyRedis.cmdGet s cmd now out = some (s', out') ∧ Cap presized b₀ m₀ s' := by
  obtain ⟨e, s', v, hfind, hread, hcap⟩ := h.find (cmd.get 1) now true
  cases e with
  | none => exact ⟨s', _, by simp [TinyRedis.cmdGet, hfind]; rfl, hcap⟩
  | some p =>
    simp only [Store.read, Option.bind_eq_bind, Option.bind_eq_some_iff] at hread
    obtain ⟨e, he, value, hvalue, -⟩ := hread
    exact ⟨s', reply.bulk out value, by simp [TinyRedis.cmdGet, hfind, he, hvalue], hcap⟩

/-- SET is defined: the entry that is written to is there. -/
theorem cmdSet (h : Cap presized b₀ m₀ s) (hfit : cmd.Fits) :
    ∃ s' out', TinyRedis.cmdSet s cmd now out = some (s', out') ∧ Cap presized b₀ m₀ s' := by
  unfold TinyRedis.cmdSet
  cases setOptions now (cmd.args.drop 3) kNoExpiry false with
  | error e => cases e <;> exact ⟨s, _, rfl, h⟩
  | ok expireAt =>
    obtain ⟨stored, s', hset, hcap⟩ := h.set expireAt now hfit
    cases stored with
    | false => exact ⟨s', reply.error out kOom, by simp [hset], hcap⟩
    | true => exact ⟨s', reply.simpleString out (ascii "OK"), by simp [hset], hcap⟩

/-- EXPIRE is defined, whether it deletes the key or sets its deadline. -/
theorem cmdExpire (h : Cap presized b₀ m₀ s) :
    ∃ s' out', TinyRedis.cmdExpire s cmd now out = some (s', out') ∧ Cap presized b₀ m₀ s' := by
  unfold TinyRedis.cmdExpire
  cases parseInt (cmd.get 2) with
  | none => exact ⟨s, _, rfl, h⟩
  | some secs =>
    dsimp only
    split
    · obtain ⟨b, s', hrun, hcap⟩ := h.erase (cmd.get 1) now
      exact ⟨s', reply.integer out (if b then 1 else 0), by simp [hrun], hcap⟩
    · cases deadline secs kMsPerSec now with
      | none => exact ⟨s, _, rfl, h⟩
      | some expireAt =>
        obtain ⟨b, s', hrun, hcap⟩ := h.setExpireAt (cmd.get 1) expireAt now
        exact ⟨s', reply.integer out (if b then 1 else 0), by simp [hrun], hcap⟩

/-- TTL is defined. -/
theorem cmdTtl (h : Cap presized b₀ m₀ s) :
    ∃ s' out', TinyRedis.cmdTtl s cmd now out = some (s', out') ∧ Cap presized b₀ m₀ s' := by
  obtain ⟨ms, s', hrun, hcap⟩ := h.ttlMs (cmd.get 1) now
  exact ⟨s', _, by simp only [TinyRedis.cmdTtl, hrun]; rfl, hcap⟩

/-- DEL is defined, for any number of keys. -/
theorem cmdDel (h : Cap presized b₀ m₀ s) :
    ∃ s' out', TinyRedis.cmdDel s cmd now out = some (s', out') ∧ Cap presized b₀ m₀ s' := by
  have hstep : ∀ s n key, Cap presized b₀ m₀ s →
      ∃ s' n', delStep now (s, n) key = some (s', n') ∧ Cap presized b₀ m₀ s' := by
    intro s n key hs
    obtain ⟨b, s', hrun, hcap⟩ := hs.erase key now
    exact ⟨s', n + if b then 1 else 0, by simp [delStep, hrun], hcap⟩
  obtain ⟨s', n, hrun, hcap⟩ := h.countKeys (delStep now) hstep (cmd.args.drop 1) 0
  exact ⟨s', reply.integer out n, by rw [TinyRedis.cmdDel, hrun]; rfl, hcap⟩

/-- EXISTS is defined, for any number of keys. -/
theorem cmdExists (h : Cap presized b₀ m₀ s) :
    ∃ s' out', TinyRedis.cmdExists s cmd now out = some (s', out') ∧ Cap presized b₀ m₀ s' := by
  have hstep : ∀ s n key, Cap presized b₀ m₀ s →
      ∃ s' n', existsStep now (s, n) key = some (s', n') ∧ Cap presized b₀ m₀ s' := by
    intro s n key hs
    obtain ⟨e, s', -, hfind, -, hcap⟩ := hs.find key now false
    exact ⟨s', n + if e.isSome then 1 else 0, by simp [existsStep, hfind], hcap⟩
  obtain ⟨s', n, hrun, hcap⟩ := h.countKeys (existsStep now) hstep (cmd.args.drop 1) 0
  exact ⟨s', reply.integer out n, by rw [TinyRedis.cmdExists, hrun]; rfl, hcap⟩

/-- FLUSHALL is defined. -/
theorem cmdFlushall (h : Cap presized b₀ m₀ s) :
    ∃ s' out', TinyRedis.cmdFlushall s cmd out = some (s', out') ∧ Cap presized b₀ m₀ s' := by
  unfold TinyRedis.cmdFlushall
  split
  · exact ⟨s, _, rfl, h⟩
  · obtain ⟨s', hrun, hcap⟩ := h.clear
    exact ⟨s', reply.simpleString out (ascii "OK"), by simp [hrun], hcap⟩

/-- The handler of every command is defined. -/
theorem handle (h : Cap presized b₀ m₀ s) (hfit : cmd.Fits) (c : Cmd) :
    ∃ s' out', TinyRedis.handle s c cmd now out = some (s', out') ∧ Cap presized b₀ m₀ s' := by
  cases c with
  | kGet => exact h.cmdGet cmd now out
  | kSet => exact h.cmdSet cmd now out hfit
  | kDel => exact h.cmdDel cmd now out
  | kExists => exact h.cmdExists cmd now out
  | kExpire => exact h.cmdExpire cmd now out
  | kTtl => exact h.cmdTtl cmd now out
  | kFlushall => exact h.cmdFlushall cmd out
  | kPing | kEcho | kDbsize | kQuit => exact ⟨s, _, rfl, h⟩

/-- Every command is defined on a store within its capacity, and keeps it there. -/
theorem dispatch (h : Cap presized b₀ m₀ s) (hfit : cmd.Fits) :
    ∃ d s' out', TinyRedis.dispatch s cmd now out = some (d, s', out') ∧
      Cap presized b₀ m₀ s' := by
  unfold TinyRedis.dispatch
  split
  · exact ⟨_, s, out, rfl, h⟩
  · split
    · exact ⟨_, s, _, rfl, h⟩
    · next spec _ =>
      split
      · exact ⟨_, s, _, rfl, h⟩
      · obtain ⟨s', out', hrun, hcap⟩ := h.handle cmd now out hfit spec.cmd
        exact ⟨_, s', out', by rw [hrun]; rfl, hcap⟩

end Store.Cap

/-! ### Runs of commands -/

/-- A command at its time, on a store and an output. -/
def dispatchStep (x : Store × Buffer) (c : Command × Int64) : Option (Store × Buffer) :=
  (dispatch x.1 c.1 c.2 x.2).map fun r => r.2

/-- Commands dispatched one after another. -/
def dispatchAll (s : Store) (out : Buffer) (cmds : List (Command × Int64)) :
    Option (Store × Buffer) :=
  cmds.foldlM dispatchStep (s, out)

/-- A run of commands is defined, and the store stays within its capacity. -/
theorem Store.Cap.dispatchAll {presized : Prop} {b₀ m₀ : Nat} {s : Store}
    (h : Cap presized b₀ m₀ s) (out : Buffer) {cmds : List (Command × Int64)}
    (hfit : ∀ c ∈ cmds, c.1.Fits) :
    ∃ s' out', TinyRedis.dispatchAll s out cmds = some (s', out') ∧ Cap presized b₀ m₀ s' := by
  obtain ⟨⟨s', out'⟩, hrun, hcap⟩ := foldlM_rule (f := dispatchStep) (l := cmds)
    (fun _ x => Cap presized b₀ m₀ x.1)
    (fun _ c _ x hl hx => by
      obtain ⟨d, s', out', hrun, hcap⟩ := hx.dispatch c.1 c.2 x.2 (hfit c (by simp [hl]))
      exact ⟨(s', out'), by rw [dispatchStep, hrun]; rfl, hcap⟩) (s := (s, out)) h
  exact ⟨s', out', hrun, hcap⟩

/-- What a run of commands has written, command by command: each command has its reply, and after
any number of commands the output holds the replies of those. -/
theorem dispatchAll_replies {cmds : List (Command × Int64)} : ∀ {s s' : Store} {out out' : Buffer},
    dispatchAll s out cmds = some (s', out') →
    ∃ replies : List (Option RespReply),
      List.Forall₂ (fun c r => r.isSome = true ↔ c.1.argc > 0) cmds replies ∧
      (∀ r, some r ∈ replies → r.WellFormed) ∧
      ∀ k sₖ outₖ, dispatchAll s out (cmds.take k) = some (sₖ, outₖ) →
        outₖ.readable = out.readable ++ (replies.take k).flatMap replyBytes := by
  induction cmds with
  | nil =>
    intro s s' out out' _
    refine ⟨[], .nil, nofun, fun k sₖ outₖ hk => ?_⟩
    rw [List.take_nil] at hk
    cases hk
    simp
  | cons c cmds ih =>
    intro s s' out out' hrun
    obtain ⟨res, hans, hres⟩ := dispatch_emits s c.1 c.2
    -- What the step writes is one reply, behind whatever the buffer holds.
    have hstep : dispatchStep (s, out) c
        = res.map fun x => (x.2.1, emitReply out x.2.2) := by
      rw [dispatchStep, hres out]
      cases res <;> rfl
    rw [dispatchAll, List.foldlM_cons, hstep] at hrun
    cases res with
    | none => cases hrun
    | some x =>
      obtain ⟨d, s₁, r⟩ := x
      obtain ⟨replies, hall, hwf, htake⟩ := ih hrun
      have hr : Answered c.1 r := hans _ rfl
      refine ⟨r :: replies, .cons hr.isSome_iff hall, ?_, fun k sₖ outₖ hk => ?_⟩
      · rintro x (_ | ⟨_, hx⟩)
        · exact hr.wellFormed x rfl
        · exact hwf x hx
      cases k with
      | zero =>
        cases hk
        simp
      | succ k =>
        rw [List.take_succ_cons, dispatchAll, List.foldlM_cons, hstep] at hk
        rw [htake k sₖ outₖ hk, readable_emitReply, List.take_succ_cons, List.flatMap_cons,
          List.append_assoc]

/-- Replies never fall out of step with commands. On any store, what a run of commands writes
decodes after any number of commands as one reply for each of them that has a name, and nothing
else. On a store that calls can reach, every run of commands is defined. -/
theorem dispatchAll_in_sync (cmds : List (Command × Int64)) (out : Buffer) :
    (∀ s s' out', dispatchAll s out cmds = some (s', out') →
      ∃ replies : List (Option RespReply),
        List.Forall₂ (fun c r => r.isSome = true ↔ c.1.argc > 0) cmds replies ∧
        ∀ k sₖ outₖ, dispatchAll s out (cmds.take k) = some (sₖ, outₖ) →
          ∃ bytes, outₖ.readable = out.readable ++ bytes ∧
            decodeStream bytes = some (replies.take k).reduceOption) ∧
    (∀ (cfg : Config) (rd : UInt64) (s₀ s : Store) (calls : List Store.Call),
      cfg.maxKeys ≤ kPoolCapacity → 1 ≤ cfg.lruSamples → cfg.lruSamples ≤ 64 →
      Store.new cfg rd = some s₀ → (∀ call ∈ calls, call.Fits) →
      calls.foldlM Store.Call.run s₀ = some s →
      (∀ c ∈ cmds, c.1.Fits) → ∃ s' out', dispatchAll s out cmds = some (s', out')) := by
  constructor
  · intro s s' out' hrun
    obtain ⟨replies, hall, hwf, htake⟩ := dispatchAll_replies hrun
    refine ⟨replies, hall, fun k sₖ outₖ hk => ⟨_, htake k sₖ outₖ hk, ?_⟩⟩
    rw [flatMap_replyBytes]
    refine decodeStream_flatMap fun r hr => hwf r ?_
    exact List.mem_of_mem_take (List.reduceOption_mem_iff.mp hr)
  · intro cfg rd s₀ s calls hmax hsamples hsamples' hnew hcalls hreach hfit
    obtain ⟨s₁, hrun, hcap⟩ := (Store.Cap.new hmax hsamples hsamples' hnew).run hcalls
    rw [hreach] at hrun
    cases hrun
    obtain ⟨s', out', hall, -⟩ := hcap.dispatchAll out hfit
    exact ⟨s', out', hall⟩

omit [EntryPool] in
/-- A name with line breaks in it, a value with a reply in it and a command without a name: what
the four commands write decodes whole. -/
theorem dispatchAll_in_sync_hostile : letI := slabPool
    let parse (s : String) : Command × Int64 := ((parseCommand (ascii s) Command.empty).2, 5)
    let cmds := [parse "*1\r\n$6\r\na\r\n+OK\r\n",
      parse "*3\r\n$3\r\nSET\r\n$1\r\nk\r\n$5\r\n+OK\r\n\r\n", parse "*0\r\n", parse "GET k\r\n"]
    ∃ s s' out' replies bytes, Store.new { seed := 7, initialBuckets := 4 } 0 = some s ∧
      dispatchAll s (Buffer.new 0) cmds = some (s', out') ∧ out'.readable = bytes ∧
      decodeStream bytes = some replies := by
  let _ := slabPool
  intro parse cmds
  have hsync := dispatchAll_in_sync cmds (Buffer.new 0)
  have hsome : ∃ s, Store.new { seed := 7, initialBuckets := 4 } 0 = some s :=
    Store.new_isSome 0 (by decide) (by decide)
  obtain ⟨s, hnew⟩ := hsome
  obtain ⟨s', out', hrun⟩ := hsync.2 _ 0 s s [] (by decide) (by decide) (by decide) hnew nofun rfl
    (by decide)
  obtain ⟨replies, hall, hdecode⟩ := hsync.1 s s' out' hrun
  obtain ⟨bytes, hbytes, hreplies⟩ := hdecode 4 s' out' hrun
  rw [Buffer.readable_new, List.nil_append] at hbytes
  exact ⟨s, s', out', _, bytes, hnew, hrun, hbytes, hreplies⟩

end TinyRedis

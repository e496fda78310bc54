import TinyRedis.Proofs.Net.Isolation
import TinyRedis.Proofs.Resp.Bounds

/-!
# `TinyRedis.Proofs.Net.Memory`: what the clients can make the server hold

Three things grow with what the clients send: the input buffers, the number of keys, and the bytes
of the keys and values. `run_footprint` bounds all three at every moment of every run, whatever the
clients send and in whatever pieces.

An input buffer grows only in `onReadable`, before a read. There nothing that could be parsed is
left in it, so what it holds is shorter than the longest request (`kMaxPending`), and the growth to
twice the capacity stays below twice what is held and asked for. This is said of open connections:
one that is closing is no longer parsed, and may be made to read on by an `EPOLLHUP`.

The bytes of a key or a value come from the parser, which bounds them. No call of the store makes an
item longer than it was written.

* `Slim`, `Act.slim`: the input buffers, and what an action does to them.
* `Dict.Short`, `Store.Op.short_run`: the items, and what a call of the store does to them.
* `Store.Within`: a store within its capacity, with short items. Commands and sweeps keep it.
* `Acts.footprint`: all of it along a trace.

The output buffers are not bounded by the source: a client that sends commands and reads no replies
makes its output grow.
-/

set_option autoImplicit false

namespace TinyRedis

open Lib

/-- Longer input is never left waiting for the rest of a request. -/
def kMaxPending : Nat := 5 + kMaxArgs * (kMaxBulkLength + 13)

/-- The largest input buffer of an open connection. -/
def kMaxInput : Nat := 2 * (kMaxPending + kDefaultCapacity)

/-! ### Input buffers -/

/-- A growth ends below twice what is held and asked for. -/
theorem Buffer.capacity_ensureWritable_le (b : Buffer) (n : Nat) :
    (b.ensureWritable n).capacity ≤ max b.capacity (2 * (b.size + n)) := by
  rw [capacity_ensureWritable]
  split <;> omega

/-- What waits for the rest of a request is short. -/
theorem Connection.Settled.size_le {c : Connection} (h : c.Settled) (hopen : c.state = .kOpen) :
    c.in_.size ≤ kMaxPending := by
  have hpending := (verdict_pending_iff Command.empty).mp (h hopen)
  obtain ⟨hinline, harray, -⟩ := parseCommand_waits c.in_.readable Command.empty
  have hlong : kMaxInlineLength + 1 ≤ kMaxPending := by decide
  rw [← Buffer.length_readable]
  by_cases hstar : c.in_.readable.head? = some 42
  · exact Nat.le_of_lt (harray hpending hstar).1
  · exact Nat.le_trans (hinline hpending hstar) hlong

/-- The input buffers of the open connections are within their bound. -/
def Slim (heap : ConnId → Option Connection) : Prop :=
  ∀ id c, heap id = some c → c.state = .kOpen → c.in_.capacity ≤ kMaxInput

/-- One connection is written, and the others are as they were. -/
theorem Slim.update {heap : ConnId → Option Connection} (h : Slim heap) {id : ConnId}
    {x : Option Connection} (hx : ∀ c, x = some c → c.state = .kOpen → c.in_.capacity ≤ kMaxInput) :
    Slim (Function.update heap id x) := by
  intro id' c hc hopen
  rcases update_eq_some hc with ⟨-, heq⟩ | ⟨-, hc⟩
  · exact hx c heq hopen
  · exact h id' c hc hopen

variable [EntryPool]

/-- The step lemma for the buffers. -/
theorem Act.slim {p q : Plane} {a : Action} (h : Act p a q) (hp : Slim p.heap) : Slim q.heap := by
  -- Only `prepare` makes a buffer grow. A connection that is closing is not asked about.
  cases h with
  | tick | clock | lose | sweep => exact hp
  | connect =>
    refine hp.update ?_
    rintro _ ⟨⟩ -
    rw [show (Buffer.new kDefaultCapacity).capacity = kDefaultCapacity from List.length_replicate]
    decide
  | @prepare id c hc _ hsettled =>
    refine hp.update ?_
    rintro _ ⟨⟩ hopen
    have hgrown := c.in_.capacity_ensureWritable_le kDefaultCapacity
    have hwas := hp id c hc hopen
    have hsize := hsettled.size_le hopen
    show (c.in_.ensureWritable kDefaultCapacity).capacity ≤ kMaxInput
    unfold kMaxInput at *
    omega
  | @receive id c data hroom hc =>
    refine hp.update ?_
    rintro _ ⟨⟩ hopen
    exact Nat.le_trans (Nat.le_of_eq (c.in_.capacity_write data hroom)) (hp id c hc hopen)
  | command hc hstate _ _ _ hin =>
    refine hp.update ?_
    rintro _ ⟨⟩ -
    exact Nat.le_trans (Nat.le_of_eq (Buffer.capacity_consume hin)) (hp _ _ hc hstate)
  | refuse | shut =>
    refine hp.update ?_
    rintro _ ⟨⟩ ⟨⟩
  | send hc | watch hc =>
    refine hp.update ?_
    rintro _ ⟨⟩ hopen
    have hwas := hp _ _ hc hopen
    exact hwas
  | destroy => exact hp.update fun c hc => by cases hc

/-! ### Items -/

/-- Keys and values as long as the parser lets through. -/
def Dict.Short (v : Dict) : Prop :=
  ∀ k it, v k = some it → k.length ≤ kMaxBulkLength ∧ it.value.length ≤ kMaxBulkLength

namespace Dict.Short

variable {v : Dict} {key : Bytes} {now : Int64}

omit [EntryPool] in
/-- A short item is put under a short key, or an item removed. -/
theorem update (h : v.Short) {o : Option Item} (ho : ∀ it, o = some it →
    key.length ≤ kMaxBulkLength ∧ it.value.length ≤ kMaxBulkLength) :
    Dict.Short (Function.update v key o) := by
  intro k it hk
  by_cases hkey : k = key
  · subst hkey
    rw [Function.update_self] at hk
    exact ho it hk
  · rw [Function.update_of_ne hkey] at hk
    exact h k it hk

omit [EntryPool] in
/-- A live item is an item. -/
theorem live (h : v.Short) {it : Item} (hlive : v.live key now = some it) :
    key.length ≤ kMaxBulkLength ∧ it.value.length ≤ kMaxBulkLength := by
  rw [Dict.live, Option.filter_eq_some_iff] at hlive
  exact h key it hlive.1

omit [EntryPool] in
/-- Removing what has expired leaves the rest short. -/
theorem purge (h : v.Short) : (v.purge key now).Short := h.update fun _ hit => h.live hit

omit [EntryPool] in
/-- Removing a key leaves the rest short. -/
theorem erase (h : v.Short) : (v.erase key).Short := h.update fun it hit => by cases hit

omit [EntryPool] in
/-- A lookup that counts as a use changes no byte. -/
theorem touch (h : v.Short) : (v.touch key now).Short := by
  refine h.update fun it hit => ?_
  obtain ⟨it₀, hit₀, rfl⟩ := Option.map_eq_some_iff.mp hit
  exact h key it₀ hit₀

end Dict.Short

namespace Store

variable {s s' : Store} {now : Int64}

/-- A call that leaves a short dictionary leaves a short store. -/
theorem Leaves.short {v : Dict} {n : Nat} (h : Leaves s s' v n) (hv : v.Short) : s'.view.Short := by
  rw [view, h.table.view]
  exact hv

/-- What an eviction or a sweep leaves was there before. -/
theorem Drops.short (h : Drops now s s') (hs : s.view.Short) : s'.view.Short := by
  intro k it hk
  rcases h.view k with heq | hnone
  · exact hs k it (heq ▸ hk)
  · rw [hnone] at hk
    cases hk

/-- What a `set` is given is as long as the parser lets through. -/
def Op.Short : Op → Prop
  | .set key value _ _ => key.length ≤ kMaxBulkLength ∧ value.length ≤ kMaxBulkLength
  | _ => True

/-- `set` writes the item it is given, and otherwise only removes. -/
theorem SetOutcome.short {key value : Bytes} {expireAtMs : Int64} {b : Bool}
    (h : SetOutcome s key value expireAtMs now b s') (hinv : s.table.Inv) (hs : s.view.Short)
    (hop : (Op.set key value expireAtMs now).Short) : s'.view.Short := by
  cases h with
  | past _ leaves => exact leaves.short hs.erase
  | overwritten _ _ leaves =>
    refine leaves.short (hs.update ?_)
    rintro _ ⟨⟩
    exact hop
  | refused _ _ looked => exact (lookup_drops hinv looked).short hs
  | inserted _ _ looked room _ _ _ _ view _ =>
    have hlooked := lookup_drops hinv looked
    rw [view]
    refine ((makeRoom_drops hlooked.inv room).short (hlooked.short hs)).update ?_
    rintro _ ⟨⟩
    exact hop

/-- The step lemma for the items: every call of a client. -/
theorem Op.short_run (hinv : s.table.Inv) (hs : s.view.Short) {op : Op} (hfit : op.Fits)
    (hop : op.Short) {r : Reply} (hrun : op.run s = some (r, s')) : s'.view.Short := by
  -- Each call leaves a dictionary that is known, and short because the one before was.
  cases op with
  | find key now touch =>
    obtain ⟨s'', hrun', hleaves⟩ := run_find hinv key now touch
    rw [hrun] at hrun'
    cases hrun'
    refine hleaves.short ?_
    cases touch with
    | true => exact hs.purge.touch
    | false => exact hs.purge
  | set key value expireAtMs now =>
    simp only [Op.run, Option.bind_eq_bind, Option.bind_eq_some_iff] at hrun
    obtain ⟨⟨b, s''⟩, hset, heq⟩ := hrun
    cases heq
    exact (set_cases hinv hfit hset).short hinv hs hop
  | erase key now =>
    obtain ⟨s'', hrun', hleaves⟩ := erase_spec hinv key now
    simp only [Op.run, hrun', Option.bind_eq_bind, Option.bind_some] at hrun
    cases hrun
    exact hleaves.short hs.erase
  | setExpireAt key expireAtMs now =>
    obtain ⟨s'', hrun', hleaves⟩ := setExpireAt_spec hinv key expireAtMs now
    simp only [Op.run, hrun', Option.bind_eq_bind, Option.bind_some] at hrun
    cases hrun
    refine hleaves.short ?_
    split
    · exact hs.erase
    · refine hs.update fun it hit => ?_
      obtain ⟨it₀, hit₀, rfl⟩ := Option.map_eq_some_iff.mp hit
      have hshort := hs.live hit₀
      exact hshort
  | ttlMs key now =>
    obtain ⟨s'', hrun', hleaves⟩ := ttlMs_spec hinv key now
    simp only [Op.run, hrun', Option.bind_eq_bind, Option.bind_some] at hrun
    cases hrun
    exact hleaves.short hs.purge
  | clear =>
    obtain ⟨t', hrun', hb⟩ := clear_spec hinv
    simp only [Op.run, hrun', Option.bind_eq_bind, Option.bind_some] at hrun
    cases hrun
    intro k it hk
    rw [view, hb.view] at hk
    cases hk
  | size =>
    cases hrun
    exact hs

/-- The store is within its capacity, and holds short items only. -/
def Within (presized : Prop) (b₀ m₀ : Nat) (s : Store) : Prop :=
  Cap presized b₀ m₀ s ∧ s.view.Short

variable {presized : Prop} {b₀ m₀ : Nat}

/-- A command keeps the store within its capacity, and its items short. -/
theorem Within.command (h : s.Within presized b₀ m₀) {cmd : Command} (hbounded : cmd.Bounded)
    (now : Int64) :
    ∃ x s', (cmd.plan now).runM Op.run s = some (x, s') ∧ s'.Within presized b₀ m₀ := by
  refine Plan.runM_rule (Within presized b₀ m₀) ?_ (cmd.plan_all now) h
  rintro s op ⟨hcap, hs⟩ hasks
  have hfit := hasks.fits hbounded
  have hop : op.Short := by
    cases hasks with
    | set => exact ⟨hbounded 1, hbounded 2⟩
    | find | erase | setExpireAt | ttlMs | clear | size => trivial
  obtain ⟨s', hrun, hcap'⟩ : ∃ s', (Call.client op).run s = some s' ∧ Cap presized b₀ m₀ s' :=
    hcap.step hfit
  simp only [Call.run, Option.bind_eq_bind, Option.bind_eq_some_iff] at hrun
  obtain ⟨⟨r, s₁⟩, hrun, heq⟩ := hrun
  cases heq
  exact ⟨r, s₁, hrun, hcap', Op.short_run hcap.inv hs hfit hop hrun⟩

/-- A sweep keeps the store within its capacity, and its items short. -/
theorem Within.cycle (h : s.Within presized b₀ m₀) (now : Int64) (sampleLimit : Nat) :
    ∃ r s', s.activeExpireCycle now sampleLimit = some (r, s') ∧ s'.Within presized b₀ m₀ := by
  obtain ⟨r, s', hrun, hcap'⟩ := h.1.activeExpireCycle now sampleLimit
  exact ⟨r, s', hrun, hcap', (activeExpireCycle_drops h.1.inv hrun).short h.2⟩

end Store

/-- The step lemma for the store. -/
theorem Act.within {p q : Plane} {a : Action} (h : Act p a q) {presized : Prop} {b₀ m₀ : Nat}
    (hp : p.store.Within presized b₀ m₀) : q.store.Within presized b₀ m₀ := by
  cases htrans : a.transaction? with
  | none =>
    rw [(h.quiet htrans).1]
    exact hp
  | some tr =>
    obtain ⟨note, hstep, -⟩ := h.transaction htrans
    cases tr with
    | sweep now =>
      obtain ⟨r, s', hrun, hs'⟩ := hp.cycle now p.cfg.expireSampleBuckets
      obtain ⟨-, rfl⟩ := Transaction.sweep_eq hstep hrun
      exact hs'
    | command id cmd now =>
      obtain ⟨x, s', hrun, hs'⟩ := hp.command (h.bounded htrans) now
      obtain rfl := Transaction.command_eq hstep hrun
      exact hs'

/-! ### Runs of the server -/

/-- What the server holds for its clients, but for the replies they have not taken. -/
structure Footprint (maxKeys : Nat) (s : System) : Prop where
  input : Slim s.heap
  keys : s.server.store.size ≤ maxKeys
  items : s.server.store.view.Short

/-- The run lemma. -/
theorem Acts.footprint {p q : Plane} {actions : List Action} (h : Acts p actions q)
    {presized : Prop} {b₀ m₀ : Nat} (hheap : Slim p.heap) (hstore : p.store.Within presized b₀ m₀) :
    Slim q.heap ∧ q.store.Within presized b₀ m₀ := by
  induction h with
  | nil => exact ⟨hheap, hstore⟩
  | snoc _ hact ih => exact ⟨hact.slim ih.1, hact.within ih.2⟩

namespace Server

/-- What clients can make the server hold is bounded, at every moment of every run. -/
theorem run_footprint {cfg : Config} {rd : UInt64} {listenFd : Fd} {reserveFd : Option Fd}
    {held : Fd → Bool} {s₀ : System} (hvalid : cfg.Valid)
    (hnew : Server.new cfg rd listenFd reserveFd held = some s₀) (script : List Answers) :
    (Server.run script s₀).Sat (fun _ => Footprint (resolveMaxKeys cfg.store.maxKeys))
      (fun _ => Footprint (resolveMaxKeys cfg.store.maxKeys)) := by
  refine (run_always hnew fun s act _ hruns => ?_).wp (not_not.mpr hvalid) script
  obtain ⟨actions, hacts⟩ := hruns
  obtain ⟨store, hstore, hs₀⟩ := Option.bind_eq_some_iff.mp hnew
  have hcap := Store.Cap.new hvalid.1 hvalid.2.1 hvalid.2.2 hstore
  obtain ⟨-, hempty, -⟩ := Store.new_spec hstore
  cases hs₀
  obtain ⟨hslim, hwithin⟩ := hacts.footprint (fun _ _ hc => nomatch hc) ⟨hcap, fun k it hk => by
    cases (congrFun hempty k).symm.trans hk⟩
  exact ⟨hslim, Nat.le_trans hwithin.1.size_le (Nat.le_of_eq hwithin.1.maxKeys_eq), hwithin.2⟩

omit [EntryPool] in
/-- A client whose request comes in two pieces: the first is left in the buffer, and with the second
the key is stored. -/
theorem run_footprint_pieces : letI := slabPool
    let cfg : Config := { store := { maxKeys := 2, seed := 7, initialBuckets := 4 } }
    let accepting : List Answers := [{}, {}, { wait := .ok [(3, EPOLLIN)] }, {},
      { accept := .ok 7 }, {}, {}, {}, {}, { nowMs := 1000 }]
    let first : List Answers := [{}, {}, { wait := .ok [(7, EPOLLIN)] },
      { read := .ok (ascii "*3\r\n$3\r\nSET\r\n$1\r\n") }, { nowMs := 1001 }, {}, {}, {}]
    let second : List Answers := [{}, { wait := .ok [(7, EPOLLIN)] },
      { read := .ok (ascii "a\r\n$1\r\n1\r\n") }, { nowMs := 1002 }, {}, {}, {}, { write := .ok 5 }]
    ∃ s₀ call₁ s₁ call₂ s₂, Server.new cfg 0 3 (some 4) (fun fd => fd < 3) = some s₀ ∧
      Server.run (accepting ++ first) s₀ = .waiting call₁ s₁ ∧ Footprint 2 s₁ ∧
      (s₁.heap 0).map (·.in_.readable) = some (ascii "*3\r\n$3\r\nSET\r\n$1\r\n") ∧
      Server.run (accepting ++ first ++ second) s₀ = .waiting call₂ s₂ ∧ Footprint 2 s₂ ∧
      (s₂.heap 0).map (·.in_.readable) = some [] ∧ s₂.server.store.size = 1 ∧
      (s₂.sessions 0).written = ascii "+OK\r\n" := by
  let _ := slabPool
  intro cfg accepting first second
  have hvalid : cfg.Valid := by unfold Config.Valid; decide
  obtain ⟨s₀, call₁, s₁, hnew, hrun₁, hs₁⟩ := exists_moment cfg (accepting ++ first)
    (fun s => decide ((s.heap 0).map (·.in_.readable)
      = some (ascii "*3\r\n$3\r\nSET\r\n$1\r\n"))) (by decide +kernel)
  obtain ⟨s₀', call₂, s₂, hnew', hrun₂, hs₂⟩ := exists_moment cfg (accepting ++ first ++ second)
    (fun s => decide ((s.heap 0).map (·.in_.readable) = some [] ∧ s.server.store.size = 1 ∧
      (s.sessions 0).written = ascii "+OK\r\n")) (by decide +kernel)
  obtain rfl : s₀ = s₀' := Option.some.inj (hnew.symm.trans hnew')
  have hfirst := run_footprint hvalid hnew (accepting ++ first)
  have hsecond := run_footprint hvalid hnew (accepting ++ first ++ second)
  rw [hrun₁] at hfirst
  rw [hrun₂] at hsecond
  exact ⟨s₀, call₁, s₁, call₂, s₂, hnew, hrun₁, hfirst, of_decide_eq_true hs₁, hrun₂, hsecond,
    of_decide_eq_true hs₂⟩

end Server

end TinyRedis

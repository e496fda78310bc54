import TinyRedis.Proofs.Command.Meaning
import TinyRedis.Proofs.Net.Clock
import TinyRedis.Proofs.Store.Cache

/-!
# `TinyRedis.Proofs.Net.Reference`: the server is a finite map behind many connections

`RefServer` is what the server is for: a finite map from keys to a value and an optional deadline,
on which the commands of all clients are carried out one at a time, as they are meant
(`Command.meaning`). A sweep may let go of items whose deadline has passed at its time, and of no
others. A full map refuses new keys, or makes room for them, as the policy says.

`run_refines_reference_server` shows that what every client of the server has been sent, with what
is still in its output buffer, is what this machine replies to its commands: across the event loop,
the buffers and the parser, down to the hash table with its pool, its sampled expiry and its sampled
eviction. Which run of the machine it is stands in the journal:

* what the machine has done is, in order, the commands and the sweeps of the journal, each at the
  time that stands there (`Explained`);
* every such time is an answer of the clock, and the commands of a client are those that the
  connection has dispatched, at the times at which it has (`ServedAs`).

So a machine that served an item after its deadline, or lost one before, would need a clock that
says so. The clock is asked to be at least 500, which is where no signed operation of a command
overflows (`TinyRedis.Proofs.Command.Checked`). `System.NoOverflow` says so of the run, and
includes the one signed operation of the server itself, that of the pacing of the sweeps.

The proof carries the simulation of `TinyRedis.Proofs.Store.Cache` along the trace, with one case
for a command and one for a sweep.
-/

set_option autoImplicit false

namespace TinyRedis

open Lib

/-! ### The machine -/

/-- A command on the map, with its reply and the map after it. Without eviction there is only one
way. -/
def RefMap.Command (policy : EvictionPolicy) (maxKeys : Nat) (m : RefMap)
    (c : TinyRedis.Command × Int64) (reply : Option RespReply) (m' : RefMap) : Prop :=
  ∃ d, (c.1.meaning c.2).Runs (RefMap.Step policy maxKeys) m (d, reply) m'

/-- The runs of the machine from the empty map: what it has done, with its replies, and its map. -/
inductive RefServer (policy : EvictionPolicy) (maxKeys : Nat) :
    List (Transaction × Option RespReply) → RefMap → Prop where
  | start : RefServer policy maxKeys [] ∅
  | command {log : List (Transaction × Option RespReply)} {m m' : RefMap} (id : ConnId)
      {cmd : Command} {now : Int64} {reply : Option RespReply} : RefServer policy maxKeys log m →
      m.Command policy maxKeys (cmd, now) reply m' →
      RefServer policy maxKeys (log ++ [(.command id cmd now, reply)]) m'
  | sweep {log : List (Transaction × Option RespReply)} {m m' : RefMap} {now : Int64} :
      RefServer policy maxKeys log m → m.Swept now.toInt m' →
      RefServer policy maxKeys (log ++ [(.sweep now, none)]) m'

/-- The commands of a client with their times, and the replies to them. -/
def repliesTo (id : ConnId) (log : List (Transaction × Option RespReply)) :
    List ((Command × Int64) × Option RespReply) :=
  log.filterMap fun x =>
    match x.1 with
    | .command id' cmd now => if id' = id then some ((cmd, now), x.2) else none
    | .sweep _ => none

/-- The replies to a client follow the log. -/
theorem repliesTo_append (id : ConnId) (log log' : List (Transaction × Option RespReply)) :
    repliesTo id (log ++ log') = repliesTo id log ++ repliesTo id log' :=
  List.filterMap_append

variable [EntryPool]

namespace Store.Stands

variable {policy : EvictionPolicy} {maxKeys : Nat} {s s' : Store} {m : RefMap}

/-- A store that stands for a map keeps its invariant. -/
theorem inv (h : Stands policy maxKeys s m) : s.table.Inv := by
  obtain ⟨_, _, hcap⟩ := h.cap
  exact hcap.inv

/-- A command of the serial order is a command of the machine. -/
theorem command (h : Stands policy maxKeys s m) {id : ConnId} {cmd : Command} {now : Int64}
    (hbounded : cmd.Bounded) (hnow : 500 ≤ now) {sampleBuckets : Nat}
    {note : Option (ConnId × Dispatch)}
    (hstep : (Transaction.command id cmd now).step sampleBuckets s = some (note, s')) :
    ∃ reply m', m.Command policy maxKeys (cmd, now) reply m' ∧
      Dispatch.reply { store := s, cmd, now } = replyBytes reply ∧
      Stands policy maxKeys s' m' := by
  have hpos : 0 ≤ now := Int64.le_trans (by decide) hnow
  have hcall : ∀ s m op, Stands policy maxKeys s m → cmd.Asks now op → ∃ r s' m',
      op.run s = some (r, s') ∧ op.Rounds r ∧ m.Step policy maxKeys op r m' ∧
        Stands policy maxKeys s' m' := by
    intro s m op hs hasks
    obtain ⟨r, s', m', hrun, hmap, hs'⟩ := hs.step (hasks.ok hbounded hpos)
    have hrounds := Op.rounds_run hs.inv (fun t ht => hasks.now_eq t ht ▸ hnow) hrun
    exact ⟨r, s', m', hrun, hrounds, hmap, hs'⟩
  obtain ⟨⟨d, reply⟩, s₁, m', hrun, hruns, hs₁⟩ :=
    Plan.runM_runs_of_sim (Stands policy maxKeys) hcall (cmd.plan_all now) (cmd.plan_agree hpos) h
  have hdispatch := dispatch_of_plan (Buffer.new 0) hrun
  rw [Transaction.step, hdispatch] at hstep
  cases hstep
  refine ⟨reply, m', ⟨d, hruns⟩, ?_, hs₁⟩
  rw [Dispatch.reply, hdispatch]
  simp

/-- A sweep of the serial order is a sweep of the machine. -/
theorem sweep (h : Stands policy maxKeys s m) {now : Int64} {sampleBuckets : Nat}
    {note : Option (ConnId × Dispatch)}
    (hstep : (Transaction.sweep now).step sampleBuckets s = some (note, s')) :
    note = none ∧ ∃ m', m.Swept now.toInt m' ∧ Stands policy maxKeys s' m' := by
  obtain ⟨r, s₁, m', hrun, hswept, hs₁⟩ := h.cycle now sampleBuckets
  rw [Transaction.step, hrun] at hstep
  cases hstep
  exact ⟨rfl, m', hswept, hs₁⟩

end Store.Stands

/-! ### Traces -/

/-- Commands come from the parser, which bounds their arguments. -/
theorem Act.bounded {p q : Plane} {a : Action} (h : Act p a q) {id : ConnId} {cmd : Command}
    {now : Int64} (htrans : a.transaction? = some (.command id cmd now)) : cmd.Bounded := by
  cases h with
  | @command _ c _ _ _ _ _ _ _ _ _ hverdict =>
    cases htrans
    intro i
    rw [verdict_eq c.in_.readable Command.empty] at hverdict
    have hshort := @parseCommand_short c.in_.readable Command.empty
    split at hverdict
    · cases hverdict
    · cases hverdict
    · next hok =>
      cases hverdict
      exact hshort hok i i.isLt i.isLt
  | sweep => cases htrans
  | _ => cases htrans

/-- What the connections have dispatched and replied is what the machine has done. -/
def Logged (sessions : ConnId → Session) (log : List (Transaction × Option RespReply)) : Prop :=
  ∀ id, (sessions id).dispatched.map (fun d => ((d.cmd, d.now), d.reply))
    = (repliesTo id log).map fun x => (x.1, replyBytes x.2)

/-- The plane is that of a run of the machine, which has done what stands in the journal. -/
structure Plane.RunOf (q : Plane) (policy : EvictionPolicy) (maxKeys : Nat)
    (log : List (Transaction × Option RespReply)) (m : RefMap) : Prop where
  run : RefServer policy maxKeys log m
  stands : Store.Stands policy maxKeys q.store m
  logged : Logged q.sessions log
  journal : log.map Prod.fst = q.journal.filterMap JournalEntry.transaction?
  /-- No signed operation of a command has overflowed. -/
  defined : ∀ id, ∀ d ∈ (q.sessions id).dispatched, ∀ out,
    ∃ r, Checked.dispatch d.store d.cmd d.now out = some r

/-- The step lemma: an action is a step of the machine, or none. -/
theorem Act.reference {policy : EvictionPolicy} {maxKeys : Nat} {p q : Plane} {a : Action}
    (h : Act p a q) {log : List (Transaction × Option RespReply)} {m : RefMap}
    (hp : p.RunOf policy maxKeys log m)
    (htime : ∀ t ∈ a.event?.bind JournalEntry.time?, 500 ≤ t) :
    ∃ log' m', q.RunOf policy maxKeys log' m' := by
  have hjournal := h.journal_filterMap JournalEntry.transaction?
  rw [← Action.transaction?_eq] at hjournal
  cases htrans : a.transaction? with
  | none =>
    obtain ⟨hstore, hsame⟩ := h.quiet htrans
    rw [htrans, Option.toList_none, List.append_nil] at hjournal
    exact ⟨log, m, hp.run, by rw [hstore]; exact hp.stands,
      fun id => by rw [hsame id]; exact hp.logged id, by rw [hjournal]; exact hp.journal,
      fun id => by rw [hsame id]; exact hp.defined id⟩
  | some tr =>
    rw [htrans] at hjournal
    obtain ⟨note, hstep, hnote⟩ := h.transaction htrans
    have hevent := Action.event?_of_transaction htrans
    -- A sweep of the store is one of the machine. A command has the reply of the machine, and is
    -- defined in the source at its time.
    cases tr with
    | sweep now =>
      obtain ⟨rfl, m', hswept, hq⟩ := hp.stands.sweep hstep
      have hsame : ∀ id, (q.sessions id).dispatched = (p.sessions id).dispatched := fun id =>
        (hnote id).trans (List.append_nil _)
      refine ⟨_, m', hp.run.sweep hswept, hq, fun id => ?_, ?_, fun id => ?_⟩
      · rw [hsame id, repliesTo_append]
        simpa [repliesTo] using hp.logged id
      · rw [List.map_append, hp.journal, hjournal]
        rfl
      · rw [hsame id]
        exact hp.defined id
    | command id cmd now =>
      obtain rfl := Transaction.note_of_command hstep
      have hnow : 500 ≤ now := htime now (by rw [hevent]; rfl)
      obtain ⟨reply, m', hcommand, hreply, hq⟩ := hp.stands.command (h.bounded htrans) hnow hstep
      refine ⟨_, m', hp.run.command id hcommand, hq, fun id' => ?_, ?_, fun id' d hd out => ?_⟩
      · rw [hnote id', repliesTo_append, List.map_append, List.map_append, hp.logged id']
        by_cases hid : id = id' <;> simp [dispatchedBy, repliesTo, hid, hreply]
      · rw [List.map_append, hp.journal, hjournal]
        rfl
      · rw [hnote id'] at hd
        rcases List.mem_append.mp hd with hd | hd
        · exact hp.defined id' d hd out
        · by_cases hid : id = id'
          · obtain rfl : d = { store := p.store, cmd, now } := by
              simpa [dispatchedBy, hid] using hd
            show ∃ r, Checked.dispatch p.store cmd now out = some r
            rw [Checked.dispatch_eq hp.stands.inv hnow]
            exact Transaction.dispatch_defined hstep out
          · simp [dispatchedBy, hid] at hd

/-- The run lemma: a trace is a run of the machine. -/
theorem Acts.reference {policy : EvictionPolicy} {maxKeys : Nat} {p q : Plane}
    {actions : List Action} (h : Acts p actions q) (hfresh : p.Fresh)
    (hstart : Store.Stands policy maxKeys p.store ∅) (htimes : ∀ t ∈ times q.journal, 500 ≤ t) :
    ∃ log m, q.RunOf policy maxKeys log m := by
  induction h with
  | nil =>
    refine ⟨[], ∅, .start, hstart, fun id => ?_, ?_, fun id d hd => ?_⟩
    · rw [hfresh.sessions id]
      rfl
    · rw [hfresh.journal]
      rfl
    · rw [hfresh.sessions id] at hd
      cases hd
  | @snoc actions a q r hacts hact ih =>
    rw [times, hact.journal_filterMap] at htimes
    obtain ⟨log, m, hq⟩ := ih fun t ht => htimes t (List.mem_append_left _ ht)
    exact hact.reference hq fun t ht =>
      htimes t (List.mem_append_right _ (Option.mem_toList.mpr ht))

/-! ### Runs of the server -/

/-- What the client has been sent, with what is still in its output buffer, is `bytes`. -/
structure Delivers (s : System) (id : ConnId) (bytes : Bytes) : Prop where
  fifo : ∀ c, s.heap id = some c → (s.sessions id).written ++ c.out.readable = bytes
  /-- Nothing is still to be sent when a connection that did not fail is destroyed. -/
  sent : s.heap id = none → (s.sessions id).broken = false → (s.sessions id).written = bytes

/-- What a connection has written, and what it still holds, is the replies to its commands. -/
theorem Health.delivers {f : Frame} {act : Activity} {s : System} (h : Health f [] act s)
    (id : ConnId) : Delivers s id (s.sessions id).replies := by
  refine ⟨fun c hc => (h.serving.served hc).fifo, fun hnone hok => ?_⟩
  by_cases hlt : id < s.nextId
  · obtain ⟨-, hbroken | ⟨-, hsent⟩⟩ := h.serving.gone hlt hnone
    · rw [hbroken] at hok
      cases hok
    · exact hsent
  · rw [(h.serving.fresh (Nat.le_of_not_lt hlt)).2]
    rfl

/-- A client has been served as in the run `log` of the machine. -/
structure ServedAs (s : System) (log : List (Transaction × Option RespReply)) (id : ConnId) :
    Prop where
  /-- The commands of the client, at the times at which they were dispatched. -/
  cmds : (s.sessions id).dispatched.map (fun d => (d.cmd, d.now)) = (repliesTo id log).map Prod.fst
  delivers : Delivers s id
    ((repliesTo id log).flatMap (fun x => replyBytes x.2) ++ (s.sessions id).refusal)

/-- What the sessions say, client by client. -/
theorem Logged.servedAs {s : System} {log : List (Transaction × Option RespReply)}
    (h : Logged s.sessions log) {f : Frame} {act : Activity} (hs : Health f [] act s)
    (id : ConnId) : ServedAs s log id := by
  have hcmds := congrArg (List.map Prod.fst) (h id)
  have hbytes := congrArg (List.flatMap Prod.snd) (h id)
  rw [List.flatMap_map, List.flatMap_map] at hbytes
  refine ⟨by simpa [Function.comp_def] using hcmds, ?_⟩
  rw [← hbytes]
  exact hs.delivers id

/-- No signed operation has overflowed. -/
structure System.NoOverflow (s : System) : Prop where
  /-- Every command was defined where it was dispatched. -/
  commands : ∀ id, ∀ d ∈ (s.sessions id).dispatched, ∀ out,
    ∃ r, Checked.dispatch d.store d.cmd d.now out = some r
  /-- The age of the last sweep was in range at every reading. -/
  sweeps : Each (fun before e => ∀ t, reading (before ++ [e]) = some t →
    (Checked.sub t (lastSweep before)).isSome) s.journal

omit [EntryPool] in
/-- The last sweep was at a time that is not negative, if the clock never was. -/
theorem lastSweep_nonneg {journal : List JournalEntry} (h : ∀ t ∈ times journal, 0 ≤ t) :
    0 ≤ lastSweep journal := by
  unfold lastSweep
  cases hlast : (sweeps journal).getLast? with
  | none => exact Int64.le_refl 0
  | some t =>
    obtain ⟨e, he, hsweep⟩ := List.mem_filterMap.mp (List.mem_of_getLast? hlast)
    refine h t (List.mem_filterMap.mpr ⟨e, he, ?_⟩)
    cases e with
    | sweep =>
      cases hsweep
      rfl
    | tick | clock | command => cases hsweep

omit [EntryPool] in
/-- The difference of two times that are not negative is in range. -/
theorem Checked.sub_isSome {a b : Int64} (ha : 0 ≤ a) (hb : 0 ≤ b) : (Checked.sub a b).isSome := by
  have ha' : 0 ≤ a.toInt := Int64.le_iff_toInt_le.mp ha
  have hb' : 0 ≤ b.toInt := Int64.le_iff_toInt_le.mp hb
  have ha'' := a.toInt_lt
  have hb'' := b.toInt_lt
  rw [Checked.sub, if_pos ⟨by omega, by omega⟩]
  rfl

omit [EntryPool] in
/-- A part of the times was given before. -/
theorem times_append (before after : List JournalEntry) :
    times (before ++ after) = times before ++ times after := List.filterMap_append

omit [EntryPool] in
/-- The answers of the clock, part by part. -/
theorem readings_append (before after : List JournalEntry) :
    readings (before ++ after) = readings before ++ readings after := List.filterMap_append

omit [EntryPool] in
/-- The age of the last sweep is in range at every reading, if the clock was never negative. -/
theorem each_sub_isSome {journal : List JournalEntry} (htimely : Each JournalEntry.Timely journal)
    (hclock : ∀ t ∈ readings journal, 0 ≤ t) :
    Each (fun before e => ∀ t, reading (before ++ [e]) = some t →
      (Checked.sub t (lastSweep before)).isSome) journal := by
  rintro before e after rfl t ht
  rw [show before ++ e :: after = before ++ [e] ++ after by simp] at htimely hclock
  rw [readings_append] at hclock
  refine Checked.sub_isSome (hclock t (List.mem_append_left _ (mem_readings ht)))
    (lastSweep_nonneg fun t' ht' => ?_)
  have hsubset := times_subset_readings htimely
  rw [times_append, times_append, readings_append] at hsubset
  exact hclock t' (hsubset (List.mem_append_left _ (List.mem_append_left _ ht')))

/-- If the clock has been at least 500, no signed operation has overflowed, and one run of the
machine explains what every client has been served. It has done what stands in the journal, at the
times that stand there, and they are answers of the clock. -/
def Explained (policy : EvictionPolicy) (maxKeys : Nat) (s : System) : Prop :=
  (∀ t ∈ readings s.journal, 500 ≤ t) → s.NoOverflow ∧
    ∃ log m, RefServer policy maxKeys log m ∧
      log.map Prod.fst = s.journal.filterMap JournalEntry.transaction? ∧
      times s.journal ⊆ readings s.journal ∧ ∀ id, ServedAs s log id

namespace Server

variable {cfg : Config} {rd : UInt64} {listenFd : Fd} {reserveFd : Option Fd} {held : Fd → Bool}
  {s₀ : System}

/-- Every trace of a new server is a run of the machine, while the clock is at least 500. -/
theorem runs_reference (hvalid : cfg.Valid)
    (hnew : Server.new cfg rd listenFd reserveFd held = some s₀) {s : System}
    (hruns : Runs s₀.plane s) (hclock : ∀ t ∈ readings s.journal, 500 ≤ t) :
    times s.journal ⊆ readings s.journal ∧ s.NoOverflow ∧
      ∃ log m, s.plane.RunOf cfg.store.policy (resolveMaxKeys cfg.store.maxKeys) log m := by
  obtain ⟨actions, hacts⟩ := hruns
  obtain ⟨hfresh, -⟩ := new_fresh hnew
  have htimely : Each JournalEntry.Timely s.journal := (hacts.timed hfresh).timely
  have hsubset := times_subset_readings htimely
  -- A new server has an empty store.
  have hstands : Store.Stands cfg.store.policy (resolveMaxKeys cfg.store.maxKeys)
      s₀.server.store ∅ := by
    obtain ⟨store, hstore, hs₀⟩ := Option.bind_eq_some_iff.mp hnew
    cases hs₀
    exact Store.Stands.new hvalid.1 hvalid.2.1 hvalid.2.2 hstore
  obtain ⟨log, m, hrunOf⟩ := hacts.reference hfresh hstands fun t ht => hclock t (hsubset ht)
  refine ⟨hsubset, ⟨hrunOf.defined, each_sub_isSome htimely fun t ht => ?_⟩, log, m, hrunOf⟩
  exact Int64.le_trans (by decide) (hclock t ht)

/-- No signed operation has overflowed where a run waits, if the clock has been at least 500. -/
theorem noOverflow_of_run (hvalid : cfg.Valid)
    (hnew : Server.new cfg rd listenFd reserveFd held = some s₀) {script : List Answers}
    {call : Call} {s : System} (hrun : Server.run script s₀ = .waiting call s)
    (hclock : ∀ t ∈ readings s.journal, 500 ≤ t) : s.NoOverflow := by
  have hruns : (Server.run script s₀).Sat (fun _ => Runs s₀.plane) (fun _ => Runs s₀.plane) :=
    (run_always hnew fun _ _ _ hs => hs).wp (not_not.mpr hvalid) script
  rw [hrun] at hruns
  exact (runs_reference hvalid hnew hruns hclock).2.1

/-- The server is the machine of the finite map, under either policy: every moment of every run with
a clock of at least 500 is explained by the machine. -/
theorem run_refines_reference_server (hvalid : cfg.Valid)
    (hnew : Server.new cfg rd listenFd reserveFd held = some s₀) (script : List Answers) :
    (Server.run script s₀).Sat
      (fun _ => Explained cfg.store.policy (resolveMaxKeys cfg.store.maxKeys))
      (fun _ => Explained cfg.store.policy (resolveMaxKeys cfg.store.maxKeys)) := by
  refine (run_always hnew fun s act hs hruns hclock => ?_).wp (not_not.mpr hvalid) script
  obtain ⟨hsubset, hdefined, log, m, hrunOf⟩ := runs_reference hvalid hnew hruns hclock
  exact ⟨hdefined, log, m, hrunOf.run, hrunOf.journal, hsubset,
    fun id => Logged.servedAs hrunOf.logged hs id⟩

omit [EntryPool] in
/-- A cap of two keys with eviction. One client stores a key with a deadline, the other two keys
more: one of the first two has to go. The first client then reads its key, and is told what the
machine says. -/
theorem run_refines_reference_server_evicted : letI := slabPool
    let cfg : Config := { store := { maxKeys := 2, seed := 7, initialBuckets := 4
                                     policy := .kAllKeysLru } }
    let accepting : List Answers := [{}, {}, { wait := .ok [(3, EPOLLIN)] }, {},
      { accept := .ok 7 }, {}, {}, {}, { accept := .ok 8 }, {}, {}, {}, {}, { nowMs := 1000 }]
    let setting : List Answers := [{}, {}, { wait := .ok [(7, EPOLLIN), (8, EPOLLIN)] },
      { read := .ok (ascii "SET a 1 EX 9\r\n") }, { nowMs := 1001 }, {}, {}, {}, { write := .ok 5 },
      {}, { read := .ok (ascii "SET b 2\r\nSET c 3\r\n") }, {}, {}, {}, {}, { write := .ok 10 }, {}]
    let getting : List Answers := [{}, {}, { wait := .ok [(7, EPOLLIN)] },
      { read := .ok (ascii "GET a\r\nDBSIZE\r\nTTL a\r\n") }, { nowMs := 1402 }, {}, {}, {}, {}, {},
      { write := .ok 9 }, {}, { write := .ok 5 }, {}]
    let script := accepting ++ setting ++ getting
    ∃ s₀ call s, Server.new cfg 0 3 (some 4) (fun fd => fd < 3) = some s₀ ∧
      Server.run script s₀ = .waiting call s ∧ readings s.journal = [1000, 1001, 1402] ∧
      (s.sessions 0).written = ascii "+OK\r\n$-1\r\n:2\r\n:-2\r\n" ∧
      (s.sessions 1).written = ascii "+OK\r\n+OK\r\n" ∧ s.NoOverflow ∧
      ∃ log m, RefServer .kAllKeysLru 2 log m ∧
        log.map Prod.fst = s.journal.filterMap JournalEntry.transaction? ∧
        ∀ id, ServedAs s log id := by
  let _ := slabPool
  intro cfg accepting setting getting script
  have hvalid : cfg.Valid := by unfold Config.Valid; decide
  obtain ⟨s₀, call, s, hnew, hrun, hs⟩ := exists_moment cfg script
    (fun s => readings s.journal = [1000, 1001, 1402] ∧
      (s.sessions 0).written = ascii "+OK\r\n$-1\r\n:2\r\n:-2\r\n" ∧
      (s.sessions 1).written = ascii "+OK\r\n+OK\r\n") (by decide +kernel)
  obtain ⟨hreadings, hfirst, hsecond⟩ := of_decide_eq_true hs
  have hexplained := run_refines_reference_server hvalid hnew script
  rw [hrun] at hexplained
  have hclock : ∀ t ∈ readings s.journal, 500 ≤ t := by
    rw [hreadings]
    simp
  obtain ⟨hdefined, log, m, hlog, hjournal, -, hserved⟩ := hexplained hclock
  exact ⟨s₀, call, s, hnew, hrun, hreadings, hfirst, hsecond, hdefined, log, m, hlog, hjournal,
    hserved⟩

end Server

end TinyRedis
